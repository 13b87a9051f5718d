import ZLog.Storage.Agree
import ZLog.Storage.Ceph

/-!
# The Ceph and RAM backends agree

`Matches` relates a RAM log object to the RADOS object that the class methods keep for it: the
header, the entries in the object's map, and the byte stream that large entries point into.
Every entry call on one object keeps the relation and is answered alike, for any size threshold
and for any value of the members that the class does not initialise.

## Main results

- `CephAgrees.exec`: one call is answered alike and keeps the relation.
- `ceph_answers_eq_ram_answers`: the backends agree on every sequence of entry calls.
-/

namespace ZLog

open Cls

variable {ν : Type}

/-! ## Keys of entries -/

/-- Zeros in front of the digits of a number do not change it. -/
theorem ofDigitChars_leftpad (n p : Nat) :
    Nat.ofDigitChars 10 ((Nat.toDigits 10 p).leftpad n '0') 0 = p := by
  rw [List.leftpad, Nat.ofDigitChars_append, Nat.ofDigitChars_replicate_zero, Nat.mul_zero,
    Nat.ofDigitChars_ten_toDigits]

/-- The text that `u64tostr` builds: the prefix and twenty digits. -/
theorem toList_u64tostr (value : Nat) (pfx : String) :
    (u64tostr value pfx).toList = pfx.toList ++ (Nat.toDigits 10 value).leftpad 20 '0' := by
  simp [u64tostr, String.toList_append]

/-- Two numbers with one text are the same. -/
theorem u64tostr_injective {p q : Nat} {pfx : String} (h : u64tostr p pfx = u64tostr q pfx) :
    p = q := by
  have hl := congrArg String.toList h
  rw [toList_u64tostr, toList_u64tostr, List.append_cancel_left_eq] at hl
  rw [← ofDigitChars_leftpad 20 p, hl, ofDigitChars_leftpad]

/-- The key of a position, character by character. -/
theorem toList_entryKey (p : Nat) :
    (entryKey p).toList = entryKeyPrefix.toList ++ (Nat.toDigits 10 p).leftpad 20 '0' :=
  toList_u64tostr p entryKeyPrefix

/-- No two positions share a key. -/
theorem entryKey_injective : Function.Injective entryKey :=
  fun _ _ h => u64tostr_injective h

/-- Every key comes after the empty one, where `trim_entries` starts. -/
theorem empty_lt_entryKey (p : Nat) : "" < entryKey p := by
  rw [String.lt_iff_toList_lt, toList_entryKey]
  exact List.nil_lt_cons ..

namespace CephBackend

/-- A pattern is found at the start of a text that begins with it. -/
theorem findSubstr_append {pat : List Char} (hne : pat ≠ []) (rest : List Char) :
    findSubstr pat (pat ++ rest) = some 0 := by
  cases pat with
  | nil => exact absurd rfl hne
  | cons c cs =>
    have hp : (c :: cs).isPrefixOf (c :: (cs ++ rest)) = true :=
      List.isPrefixOf_iff_prefix.mpr (List.prefix_append (c :: cs) rest)
    simp [findSubstr, hp]

/-- `lexical_cast` reads the position back. -/
theorem lexicalCast_leftpad {p : Nat} (hp : p < 2 ^ 64) :
    lexicalCast ((Nat.toDigits 10 p).leftpad 20 '0') = some p := by
  have hdigits : ((Nat.toDigits 10 p).leftpad 20 '0').all Char.isDigit = true := by
    rw [List.all_eq_true]
    intro c hc
    rcases List.mem_append.mp hc with hc | hc
    · rw [List.eq_of_mem_replicate hc]
      decide
    · exact Nat.isDigit_of_mem_toDigits (by omega) (by omega) hc
  have hne : (Nat.toDigits 10 p).leftpad 20 '0' ≠ [] := by
    intro h
    have hlen := congrArg List.length h
    rw [List.length_leftpad] at hlen
    simp at hlen
  unfold lexicalCast
  rw [if_pos ⟨hne, hdigits, by rw [ofDigitChars_leftpad]; exact hp⟩, ofDigitChars_leftpad]

/-- The loop of a full trim removes the keys of covered entries. -/
theorem keyAction_entryKey {p position : Nat} (hp : p < 2 ^ 64) (hle : p ≤ position) :
    keyAction (entryKey p) position = .remove := by
  have hne : entryKeyPrefix.toList ≠ [] := by decide
  unfold keyAction
  rw [toList_entryKey, findSubstr_append hne]
  simp only [List.drop_left, lexicalCast_leftpad hp]
  rw [if_neg (by omega)]

end CephBackend

/-! ## The full trim -/

/-- The pools differ in one object at most. -/
def SameBut (oid : String) (pool pool' : Pool ν) : Prop :=
  ∀ key, key ≠ oid → pool'.lookup key = pool.lookup key

/-- Storing an object changes no other. -/
theorem sameBut_insert (pool : Pool ν) (oid : String) (obj : RadosObject ν) :
    SameBut oid pool (pool.insert oid obj) := fun _ hkey => AList.lookup_insert_ne hkey

theorem SameBut.trans {oid : String} {pool pool' pool'' : Pool ν} (h : SameBut oid pool pool')
    (h' : SameBut oid pool' pool'') : SameBut oid pool pool'' :=
  fun key hkey => (h' key hkey).trans (h key hkey)

/-- With more rounds than keys, all of them past `startAfter` and covered, the loop empties the
    map of the object.  Each round removes the least key. -/
theorem CephBackend.trimEntries_ok {oid : String} {position : Nat} (fuel : Nat)
    {startAfter : String} {pool : Pool ν} {obj : RadosObject ν}
    (hobj : pool.lookup oid = some obj)
    (hkeys : ∀ kv ∈ obj.omap.toList, startAfter < kv.1 ∧
      ∃ p, kv.1 = entryKey p ∧ p < 2 ^ 64 ∧ p ≤ position)
    (hfuel : obj.omap.toList.length < fuel) :
    ∃ pool', trimEntries oid position fuel startAfter pool = (.ok (), pool') ∧
      pool'.lookup oid = some { obj with omap := .empty } ∧ SameBut oid pool pool' := by
  induction fuel generalizing startAfter pool obj with
  -- the fuel is more than the keys that are left
  | zero => omega
  | succ fuel ih =>
    cases hl : obj.omap.toList with
    -- no key is left: the loop ends with the omap empty
    | nil =>
      have hnext : pool.omapNextKey oid startAfter = .ok none := by
        simp [Pool.omapNextKey, Pool.query, hobj, Lib.OrderedMap.next?, hl]
      have hempty : obj.omap = .empty := Lib.OrderedMap.ext hl
      refine ⟨pool, by simp [trimEntries, hnext], ?_, fun _ _ => rfl⟩
      rw [hobj, ← hempty]
    -- the loop removes the first key and goes on behind it
    | cons kv rest =>
      rw [hl] at hkeys
      obtain ⟨hlt, p, hkey, hp, hle⟩ := hkeys kv (List.mem_cons_self ..)
      have hnext : pool.omapNextKey oid startAfter = .ok (some kv.1) := by
        simp only [Pool.omapNextKey, Pool.query, hobj, Lib.OrderedMap.next?_of_cons hl hlt,
          Option.map_some]
      have hact : keyAction kv.1 position = .remove := hkey ▸ keyAction_entryKey hp hle
      let obj₁ : RadosObject ν := { obj with omap := obj.omap.erase kv.1 }
      have hrm : pool.omapRmKey oid kv.1 = (.ok (), pool.insert oid obj₁) := by
        apply Pool.operate_ok
        rw [hobj]
      have hl₁ : obj₁.omap.toList = rest := Lib.OrderedMap.toList_erase_of_cons hl
      -- the keys come in order, so all others are still ahead of the cursor
      have hpast := (List.pairwise_cons.mp (hl ▸ obj.omap.sorted)).1
      have hkeys₁ : ∀ x ∈ obj₁.omap.toList, kv.1 < x.1 ∧
          ∃ p, x.1 = entryKey p ∧ p < 2 ^ 64 ∧ p ≤ position := by
        rw [hl₁]
        exact fun x hx => ⟨hpast x hx, (hkeys x (List.mem_cons_of_mem _ hx)).2⟩
      have hfuel₁ : obj₁.omap.toList.length < fuel := by
        rw [hl] at hfuel
        rw [hl₁]
        simpa using hfuel
      have hobj₁ : (pool.insert oid obj₁).lookup oid = some obj₁ := AList.lookup_insert _
      obtain ⟨pool', hrun, hobj', hsame⟩ := ih hobj₁ hkeys₁ hfuel₁
      refine ⟨pool', ?_, hobj', (sameBut_insert pool oid obj₁).trans hsame⟩
      simp only [trimEntries, hnext, hact, hrm, hrun]

/-! ## Maximum positions -/

/-- The maximum position after `p` counts too. -/
def raiseMax (m : Option Nat) (p : Nat) : Nat :=
  match m with
  | none => p
  | some m => max m p

/-- What RAM's two records of positions say about each other. -/
structure MaxPosOk (T : List Nat) (o : LogObject) : Prop where
  le : ∀ k ∈ o.entries, k ≤ o.maxpos
  mem : ∀ k ∈ o.entries, o.maxpos ∈ T
  covered : (∀ k, k ∉ o.entries) → o.maxpos = 0 ∨ ∃ n, o.trimLimit = some n ∧ o.maxpos ≤ n

/-- Entries and a trim limit: the maximum is the greater of the two. -/
theorem LogObject.maxPos_of_mem {o : LogObject} {k : Nat} (hk : k ∈ o.entries) :
    o.maxPos = some (match o.trimLimit with
      | some n => max o.maxpos n
      | none => o.maxpos) := by
  have hne : o.entries.keys.isEmpty = false := by
    rw [List.isEmpty_eq_false_iff]
    exact List.ne_nil_of_mem (AList.mem_keys.mp hk)
  unfold LogObject.maxPos
  rw [hne]
  cases o.trimLimit <;> rfl

/-- With no entries the trim limit is the maximum. -/
theorem LogObject.maxPos_of_empty {o : LogObject} (hk : ∀ k, k ∉ o.entries) :
    o.maxPos = o.trimLimit := by
  have hempty : o.entries.keys.isEmpty = true := by
    rw [List.isEmpty_iff, List.eq_nil_iff_forall_not_mem]
    exact fun k hm => hk k (AList.mem_keys.mpr hm)
  unfold LogObject.maxPos
  rw [hempty, if_pos rfl]

/-- An object with the entry of one more position. -/
def LogObject.touch (o : LogObject) (p : Nat) (e : LogEntry) : LogObject :=
  { o with entries := o.entries.insert p e, maxpos := max o.maxpos p }

/-- Storing an entry makes its position one of those in use. -/
theorem LogObject.mem_touch {o : LogObject} {p k : Nat} {e : LogEntry} :
    k ∈ (o.touch p e).entries ↔ k = p ∨ k ∈ o.entries := AList.mem_insert _

/-- A position that is not below the limit is past it. -/
theorem LogObject.lt_of_belowTrimLimit {o : LogObject} {p n : Nat}
    (hb : o.belowTrimLimit p = false) (hn : o.trimLimit = some n) : n < p := by
  simpa [LogObject.belowTrimLimit, hn] using hb

/-- Storing an entry raises the maximum to its position, as `update_max_pos` does. -/
theorem MaxPosOk.maxPos_touch {T : List Nat} {o : LogObject} (h : MaxPosOk T o) (p : Nat)
    (e : LogEntry) : (o.touch p e).maxPos = some (raiseMax o.maxPos p) := by
  rw [LogObject.maxPos_of_mem (LogObject.mem_touch.mpr (Or.inl rfl))]
  by_cases hempty : ∀ k, k ∉ o.entries
  · -- the first entry: `maxpos` is stale, and must not be above the trim limit
    rw [LogObject.maxPos_of_empty hempty]
    have hcov := h.covered hempty
    cases hl : o.trimLimit with
    | none =>
      have h0 : o.maxpos = 0 := by simpa [hl] using hcov
      simp [LogObject.touch, raiseMax, hl, h0]
    | some n =>
      have hle : o.maxpos ≤ n := by
        rcases hcov with h0 | ⟨n', hn', hle⟩
        · omega
        · rw [hl] at hn'
          cases hn'
          exact hle
      simp only [LogObject.touch, raiseMax, hl, Option.some_inj]
      omega
  · -- there were entries before, so `maxpos` counted already
    obtain ⟨k, hk⟩ := not_forall_not.mp hempty
    rw [LogObject.maxPos_of_mem hk]
    cases hl : o.trimLimit with
    | none => simp [LogObject.touch, raiseMax, hl]
    | some n =>
      simp only [LogObject.touch, raiseMax, hl, Option.some_inj]
      omega

/-- The invariant is kept when an entry is stored at a position that is counted as touched. -/
theorem MaxPosOk.touch {T T' : List Nat} {o : LogObject} (h : MaxPosOk T o) {p : Nat}
    (hb : o.belowTrimLimit p = false) (e : LogEntry) (hT : ∀ q ∈ T, q ∈ T') (hp : p ∈ T') :
    MaxPosOk T' (o.touch p e) := by
  refine ⟨?_, ?_, fun hk => absurd (LogObject.mem_touch.mpr (Or.inl rfl)) (hk p)⟩
  · intro k hk
    show k ≤ max o.maxpos p
    rcases LogObject.mem_touch.mp hk with rfl | hk
    · exact le_max_right _ _
    · exact le_trans (h.le k hk) (le_max_left _ _)
  · intro k _
    show max o.maxpos p ∈ T'
    rcases le_total o.maxpos p with hle | hle
    · -- the new position is the greatest
      rwa [max_eq_right hle]
    · rw [max_eq_left hle]
      -- an older one is, or `maxpos` was left behind by a full trim
      by_cases hempty : ∀ k, k ∉ o.entries
      · have hmax : o.maxpos = p := by
          rcases h.covered hempty with h0 | ⟨n, hn, hle'⟩
          · omega
          · have := LogObject.lt_of_belowTrimLimit hb hn
            omega
        rwa [hmax]
      · obtain ⟨k, hk⟩ := not_forall_not.mp hempty
        exact hT _ (h.mem k hk)

/-- More positions may count as touched. -/
theorem MaxPosOk.mono {T T' : List Nat} {o : LogObject} (h : MaxPosOk T o)
    (hT : ∀ q ∈ T, q ∈ T') : MaxPosOk T' o := ⟨h.le, fun k hk => hT _ (h.mem k hk), h.covered⟩

/-- The trim limit after it was raised. -/
theorem LogObject.trimLimit_raise (o : LogObject) (p : Nat) :
    (o.raiseTrimLimit p).trimLimit = some (raiseMax o.trimLimit p) := by
  unfold LogObject.raiseTrimLimit raiseMax
  cases o.trimLimit with
  | none => rfl
  | some n => simp [max_comm]

/-- Raising the trim limit keeps the invariant. -/
theorem MaxPosOk.raise {T : List Nat} {o : LogObject} (h : MaxPosOk T o) (p : Nat) :
    MaxPosOk T (o.raiseTrimLimit p) := by
  refine ⟨by simpa using h.le, by simpa using h.mem, ?_⟩
  intro hk
  rcases h.covered (by simpa using hk) with h0 | ⟨n, hn, hle⟩
  · exact Or.inl (by simpa using h0)
  · refine Or.inr ⟨_, o.trimLimit_raise p, ?_⟩
    simp only [raiseMax, hn, LogObject.maxpos_raiseTrimLimit]
    omega

/-- Raising the trim limit raises the maximum to it. -/
theorem LogObject.maxPos_raise (o : LogObject) (p : Nat) :
    (o.raiseTrimLimit p).maxPos = some (raiseMax o.maxPos p) := by
  by_cases hempty : ∀ k, k ∉ o.entries
  · rw [LogObject.maxPos_of_empty (by simpa using hempty), LogObject.maxPos_of_empty hempty,
      o.trimLimit_raise]
  · obtain ⟨k, hk⟩ := not_forall_not.mp hempty
    have hk' : k ∈ (o.raiseTrimLimit p).entries := by simpa using hk
    rw [LogObject.maxPos_of_mem hk', LogObject.maxPos_of_mem hk, o.trimLimit_raise,
      LogObject.maxpos_raiseTrimLimit]
    cases hl : o.trimLimit with
    | none => simp [raiseMax]
    | some n =>
      simp only [raiseMax, Option.some_inj]
      omega

/-- A limit that covers every touched position is the maximum of an emptied object. -/
theorem MaxPosOk.maxPos_full {T : List Nat} {o : LogObject} (h : MaxPosOk T o) {p : Nat}
    (hp : ∀ q ∈ T, q ≤ p) :
    ({ o.raiseTrimLimit p with entries := ∅ } : LogObject).maxPos = some (raiseMax o.maxPos p) := by
  rw [LogObject.maxPos_of_empty (fun k => AList.notMem_empty k)]
  show (o.raiseTrimLimit p).trimLimit = _
  rw [o.trimLimit_raise]
  by_cases hempty : ∀ k, k ∉ o.entries
  · -- no entries before either: only the limits count
    rw [LogObject.maxPos_of_empty hempty]
  · -- a full trim drops the entries, but they were all at or below `p`
    obtain ⟨k, hk⟩ := not_forall_not.mp hempty
    have hle := hp _ (h.mem k hk)
    rw [LogObject.maxPos_of_mem hk]
    cases hl : o.trimLimit with
    | none =>
      simp only [raiseMax, Option.some_inj]
      omega
    | some n =>
      simp only [raiseMax, Option.some_inj]
      omega

/-- A full trim at or above every touched position keeps the invariant. -/
theorem MaxPosOk.full {T : List Nat} {o : LogObject} (h : MaxPosOk T o) {p : Nat}
    (hp : ∀ q ∈ T, q ≤ p) : MaxPosOk T { o.raiseTrimLimit p with entries := ∅ } := by
  refine ⟨fun k hk => absurd hk (AList.notMem_empty k),
    fun k hk => absurd hk (AList.notMem_empty k), fun _ => ?_⟩
  show (o.raiseTrimLimit p).maxpos = 0 ∨
    ∃ n, (o.raiseTrimLimit p).trimLimit = some n ∧ (o.raiseTrimLimit p).maxpos ≤ n
  by_cases hempty : ∀ k, k ∉ o.entries
  · exact (h.raise p).covered (by simpa using hempty)
  · obtain ⟨k, hk⟩ := not_forall_not.mp hempty
    have hle := hp _ (h.mem k hk)
    refine Or.inr ⟨_, o.trimLimit_raise p, ?_⟩
    rw [LogObject.maxpos_raiseTrimLimit]
    unfold raiseMax
    split <;> omega

/-! ## Headers -/

namespace Cls.LogObjectHeader

/-- `update_max_pos` raises the maximum that the header answers. -/
theorem maxPos_updateMaxPos (h : LogObjectHeader) (p : Nat) :
    (h.updateMaxPos p).2.maxPos = some (raiseMax h.maxPos p) := by
  unfold updateMaxPos raiseMax
  cases hm : h.maxPos with
  | none => simp [maxPos]
  | some m =>
    by_cases hlt : m < p
    · simp only [hlt, if_true, maxPos]
      simp [max_eq_right (le_of_lt hlt)]
    · simp [hlt, hm, max_eq_left (not_lt.mp hlt)]

/-- `update_max_pos` leaves the rest of the header alone. -/
theorem updateMaxPos_eq (h : LogObjectHeader) (p : Nat) :
    (h.updateMaxPos p).2.epoch = h.epoch ∧ (h.updateMaxPos p).2.trimLimit = h.trimLimit ∧
      ((h.updateMaxPos p).1 = false → (h.updateMaxPos p).2 = h) := by
  unfold updateMaxPos
  cases h.maxPos with
  | none => simp
  | some m => by_cases hlt : m < p <;> simp [hlt]

/-- A header that was written is read back. -/
theorem read_write {h : LogObjectHeader} (hlim : ∀ n, h.trimLimit = some n → n < 2 ^ 63)
    (obj : RadosObject ν) : read (some (h.write obj)) = .ok h := by
  obtain ⟨epoch, empty, maxPos, size, limit⟩ := h
  cases limit with
  | none => simp [read, write]
  | some n =>
    have hn : n < 2 ^ 63 := hlim n rfl
    simp [read, write, toInt64_of_lt hn, toUInt64_of_lt hn]

/-- A header that is written only when it changed is stored either way. -/
theorem read_writeIf {h : LogObjectHeader} {change : Bool × LogObjectHeader} {obj : RadosObject ν}
    (hread : read (some obj) = .ok h) (hsame : change.1 = false → change.2 = h)
    (hlim : ∀ n, change.2.trimLimit = some n → n < 2 ^ 63) :
    read (some (writeIf change obj)) = .ok change.2 := by
  unfold writeIf
  cases hc : change.1 with
  | true =>
    rw [if_pos rfl]
    exact read_write hlim obj
  | false =>
    rw [if_neg (by simp), hread, hsame hc]

/-- The header is no part of the omap. -/
theorem omap_writeIf (change : Bool × LogObjectHeader) (obj : RadosObject ν) :
    (writeIf change obj).omap = obj.omap := by
  unfold writeIf
  split <;> rfl

/-- The header is no part of the byte stream. -/
theorem bytes_writeIf (change : Bool × LogObjectHeader) (obj : RadosObject ν) :
    (writeIf change obj).bytes = obj.bytes := by
  unfold writeIf
  split <;> rfl

end Cls.LogObjectHeader

/-! ## Objects -/

/-- The entry of a position; `bytes` is the byte stream that large entries point into.  What an
    invalidated entry still holds cannot be observed. -/
inductive EntryMatches (bytes : List Char) :
    Option LogEntry → Option (OmapValue ν) → Prop where
  | absent : EntryMatches bytes none none
  | inline (d : String) :
      EntryMatches bytes (some { data := d }) (some (.entry ⟨false, false, d, 0, 0⟩))
  | stream (d : String) (offset : Nat) : offset + d.toList.length ≤ bytes.length →
      (bytes.drop offset).take d.toList.length = d.toList →
      EntryMatches bytes (some { data := d })
        (some (.entry ⟨false, true, "", offset, d.toList.length⟩))
  | dead (e : LogEntry) (table : Cls.Fbs.LogEntry) : (e.trimmed || e.invalidated) = true →
      table.invalid = true → EntryMatches bytes (some e) (some (.entry table))

/-- A RAM log object, and the RADOS object with the header read from it. -/
structure Matches (T : List Nat) (o : LogObject) (obj : RadosObject ν)
    (header : Cls.LogObjectHeader) : Prop where
  read : LogObjectHeader.read (some obj) = .ok header
  epoch : header.epoch = o.epoch
  limit : header.trimLimit = o.trimLimit
  limit_lt : ∀ n, o.trimLimit = some n → n < 2 ^ 63
  maxPos : header.maxPos = o.maxPos
  maxPosOk : MaxPosOk T o
  keys : ∀ k ∈ o.entries, k ∈ T ∧ k < 2 ^ 63
  entry : ∀ p, EntryMatches obj.bytes (o.entries.lookup p) (obj.omap.find? (entryKey p))
  omap : ∀ kv ∈ obj.omap.toList, ∃ p, kv.1 = entryKey p

/-- Appending to the byte stream moves no entry that is stored in it. -/
theorem EntryMatches.append {bytes : List Char} {x : Option LogEntry} {y : Option (OmapValue ν)}
    (h : EntryMatches bytes x y) (more : List Char) : EntryMatches (bytes ++ more) x y := by
  cases h with
  | absent => exact .absent
  | inline d => exact .inline d
  | stream d offset hle heq =>
    refine .stream d offset (by simp; omega) ?_
    rw [List.drop_append_of_le_length (by omega), List.take_append_of_le_length (by simp; omega),
      heq]
  | dead e table he ht => exact .dead e table he ht

/-- RAM has an entry exactly where the omap has a key. -/
theorem EntryMatches.none_iff {bytes : List Char} {x : Option LogEntry}
    {y : Option (OmapValue ν)} (h : EntryMatches bytes x y) : x = none ↔ y = none := by
  cases h <;> simp

namespace Matches

variable {T T' : List Nat} {o : LogObject} {obj : RadosObject ν} {header : Cls.LogObjectHeader}

/-- More positions may count as touched. -/
theorem mono (h : Matches T o obj header) (hT : ∀ q ∈ T, q ∈ T') : Matches T' o obj header :=
  { h with maxPosOk := h.maxPosOk.mono hT, keys := fun k hk => ⟨hT k (h.keys k hk).1, (h.keys k hk).2⟩ }

/-- Both sides agree on what is trimmed. -/
theorem positionTrimmed (h : Matches T o obj header) (p : Nat) :
    header.positionTrimmed p = o.belowTrimLimit p := by
  unfold LogObjectHeader.positionTrimmed LogObject.belowTrimLimit
  cases ho : o.trimLimit <;> simp only [h.limit, ho]

/-- Every key of the map is the key of an entry of the RAM object. -/
theorem entry_of_key (h : Matches T o obj header) {kv : String × OmapValue ν}
    (hkv : kv ∈ obj.omap.toList) : ∃ p, kv.1 = entryKey p ∧ p ∈ o.entries := by
  obtain ⟨p, hp⟩ := h.omap kv hkv
  refine ⟨p, hp, ?_⟩
  have hfind : obj.omap.find? (entryKey p) = some kv.2 :=
    Lib.OrderedMap.find?_eq_some.mpr (by rw [← hp]; exact hkv)
  by_contra hno
  have hnone := (h.entry p).none_iff.mp (AList.lookup_eq_none.mpr hno)
  rw [hfind] at hnone
  cases hnone

/-- A method stores an entry at a position above the limit, and counts it in the header. -/
theorem store (h : Matches T o obj header) {p : Nat} (hb : o.belowTrimLimit p = false)
    (hlt : p < 2 ^ 63) (hT : ∀ q ∈ T, q ∈ T') (hp : p ∈ T') {e : LogEntry}
    {table : Cls.Fbs.LogEntry} {more : List Char}
    (he : EntryMatches (obj.bytes ++ more) (some e) (some (.entry table : OmapValue ν))) :
    Matches T' (o.touch p e)
      (LogObjectHeader.writeIf (header.updateMaxPos p)
        { obj with bytes := obj.bytes ++ more, omap := obj.omap.set (entryKey p) (.entry table) })
      (header.updateMaxPos p).2 := by
  obtain ⟨hepoch, hlimit, hsame⟩ := header.updateMaxPos_eq p
  have hlim : (header.updateMaxPos p).2.trimLimit = o.trimLimit := hlimit.trans h.limit
  refine ⟨?_, hepoch.trans h.epoch, hlim, h.limit_lt, ?_, h.maxPosOk.touch hb e hT hp, ?_, ?_, ?_⟩
  · -- the header: it is read back as it was written
    refine LogObjectHeader.read_writeIf h.read hsame ?_
    rw [hlim]
    exact h.limit_lt
  · -- the maximum: both sides raise it to `p`
    rw [LogObjectHeader.maxPos_updateMaxPos, h.maxPosOk.maxPos_touch, h.maxPos]
  · -- the entries of RAM are at touched positions
    intro k hk
    rcases LogObject.mem_touch.mp hk with rfl | hk
    · exact ⟨hp, hlt⟩
    · exact ⟨hT k (h.keys k hk).1, (h.keys k hk).2⟩
  · -- the entries themselves: `p` has the new one, every other is as before
    intro q
    rw [LogObjectHeader.bytes_writeIf, LogObjectHeader.omap_writeIf]
    show EntryMatches (obj.bytes ++ more) ((o.entries.insert p e).lookup q)
      ((obj.omap.set (entryKey p) (.entry table)).find? (entryKey q))
    rw [Lib.OrderedMap.find?_set]
    by_cases hq : q = p
    · rw [hq, if_pos rfl, AList.lookup_insert]
      exact he
    · rw [if_neg (fun hk => hq (entryKey_injective hk)), AList.lookup_insert_ne hq]
      exact (h.entry q).append more
  · -- every key of the omap is the key of a position
    intro kv hkv
    rw [LogObjectHeader.omap_writeIf] at hkv
    rcases Lib.OrderedMap.mem_set.mp hkv with rfl | ⟨hkv, -⟩
    · exact ⟨p, rfl⟩
    · exact h.omap kv hkv

/-- A method raises the trim limit. -/
theorem updateTrimLimit (h : Matches T o obj header) {p : Nat} (hlt : p < 2 ^ 63) :
    Matches T (o.raiseTrimLimit p)
      (LogObjectHeader.writeIf (header.updateTrimLimit p) obj) (header.updateTrimLimit p).2 := by
  have hlim : (header.updateTrimLimit p).2.epoch = header.epoch ∧
      (header.updateTrimLimit p).2.trimLimit = some (raiseMax o.trimLimit p) ∧
      (header.updateTrimLimit p).2.maxPos = some (raiseMax header.maxPos p) ∧
      ((header.updateTrimLimit p).1 = false → (header.updateTrimLimit p).2 = header) := by
    have hraise := LogObjectHeader.updateMaxPos_eq { header with trimLimit := some p } p
    have hmax := LogObjectHeader.maxPos_updateMaxPos { header with trimLimit := some p } p
    unfold LogObjectHeader.updateTrimLimit
    rw [← h.limit]
    cases hl : header.trimLimit with
    | none => exact ⟨hraise.1, hraise.2.1, hmax, by simp⟩
    | some n =>
      by_cases hn : n < p
      · simp only [hn, if_true]
        refine ⟨hraise.1, ?_, hmax, by simp⟩
        rw [hraise.2.1]
        simp [raiseMax, max_eq_right (le_of_lt hn)]
      · -- the limit is not raised: the maximum position covers it already
        have hm : ∃ m, header.maxPos = some m ∧ n ≤ m := by
          rw [h.maxPos]
          have hlo : o.trimLimit = some n := h.limit.symm.trans hl
          by_cases hempty : ∀ k, k ∉ o.entries
          · exact ⟨n, (LogObject.maxPos_of_empty hempty).trans hlo, le_refl _⟩
          · obtain ⟨k, hk⟩ := not_forall_not.mp hempty
            refine ⟨_, LogObject.maxPos_of_mem hk, ?_⟩
            rw [hlo]
            exact le_max_right _ _
        obtain ⟨m, hm, hnm⟩ := hm
        simp only [hn, if_false, hm, hl]
        refine ⟨trivial, ?_, ?_, by simp⟩
        · simp [raiseMax, max_eq_left (not_lt.mp hn)]
        · simp only [raiseMax, Option.some_inj]
          omega
  obtain ⟨hepoch, hlimit, hmax, hsame⟩ := hlim
  have hbound : ∀ n, some (raiseMax o.trimLimit p) = some n → n < 2 ^ 63 := by
    intro n hn
    cases hn
    unfold raiseMax
    split
    · exact hlt
    · next m hm =>
      have := h.limit_lt m hm
      omega
  refine ⟨?_, ?_, ?_, ?_, ?_, h.maxPosOk.raise p, by simpa using h.keys, ?_, ?_⟩
  · refine LogObjectHeader.read_writeIf h.read hsame ?_
    rw [hlimit]
    exact hbound
  · rw [hepoch, h.epoch, LogObject.epoch_raiseTrimLimit]
  · rw [hlimit, o.trimLimit_raise]
  · rw [o.trimLimit_raise]
    exact hbound
  · rw [hmax, h.maxPos, o.maxPos_raise]
  · intro q
    rw [LogObjectHeader.bytes_writeIf, LogObjectHeader.omap_writeIf,
      LogObject.entries_raiseTrimLimit]
    exact h.entry q
  · intro kv hkv
    rw [LogObjectHeader.omap_writeIf] at hkv
    exact h.omap kv hkv

/-- The client has removed every key and truncated the byte stream. -/
theorem full (h : Matches T o obj header) {p : Nat} (hlt : p < 2 ^ 63) (hp : ∀ q ∈ T, q ≤ p) :
    Matches T ({ o.raiseTrimLimit p with entries := ∅ } : LogObject)
      ({ LogObjectHeader.writeIf (header.updateTrimLimit p) obj with
        omap := .empty, bytes := [] } : RadosObject ν)
      (header.updateTrimLimit p).2 := by
  have hr := h.updateTrimLimit hlt
  refine ⟨hr.read, hr.epoch, hr.limit, hr.limit_lt, ?_, h.maxPosOk.full hp,
    fun k hk => absurd hk (AList.notMem_empty k), fun q => ?_, fun kv hkv => by cases hkv⟩
  · rw [hr.maxPos, o.maxPos_raise, h.maxPosOk.maxPos_full hp]
  · rw [AList.lookup_empty, Lib.OrderedMap.find?_empty]
    exact .absent

/-! ### Methods on the object -/

/-- The prologue of the methods: the header and its epoch guard. -/
theorem guard (h : Matches T o obj header) {epoch : Nat} (he : 1 ≤ epoch) {α : Type}
    (k : Cls.LogObjectHeader → Ret α) :
    (do let hd ← LogObjectHeader.read (some obj); hd.epochGuard epoch; k hd) =
      if epoch < o.epoch then .error .espipe else k header := by
  rw [h.read]
  show (do header.epochGuard epoch; k header) = _
  unfold LogObjectHeader.epochGuard
  rw [if_neg (by omega), h.epoch]
  split <;> rfl

/-- `Read` on an object that both sides have. -/
theorem logEntryRead (h : Matches T o obj header) {epoch : Nat} (he : 1 ≤ epoch) (p : Nat)
    (junk : Indeterminate) :
    Cls.logEntryRead epoch p junk (some obj) =
      if epoch < o.epoch then .error .espipe else o.read p := by
  unfold Cls.logEntryRead
  rw [h.guard he]
  by_cases hst : epoch < o.epoch
  · rw [if_pos hst, if_pos hst]
  · rw [if_neg hst, if_neg hst, h.positionTrimmed]
    unfold LogObject.read
    by_cases hb : o.belowTrimLimit p = true
    · simp [hb]
    · simp only [hb, Bool.false_eq_true, if_false, Option.getD_some, Cls.LogEntry.read]
      have hent := h.entry p
      generalize o.entries.lookup p = x at hent
      generalize obj.omap.find? (entryKey p) = y at hent
      cases hent with
      -- never written
      | absent => rfl
      -- the payload is in the table
      | inline d => simp [bind, Except.bind, Cls.LogEntry.readData]
      -- the payload is in the byte stream
      | stream d offset hle heq =>
        have hdata : Cls.LogEntry.readData ⟨true, false, true, "", offset, d.toList.length⟩ obj =
            .ok d := by
          by_cases h0 : d.toList.length = 0
          · have hd : d = "" := by simpa using h0
            simp [Cls.LogEntry.readData, hd]
          · simp only [Cls.LogEntry.readData, if_true, ne_eq, not_true_eq_false, if_false, h0, heq,
              String.ofList_toList]
        simp [bind, Except.bind, hdata]
      -- filled or trimmed: the same refusal
      | dead e table he' ht => simp [bind, Except.bind, ht, he']

/-- `MaxPos` on an object that both sides have. -/
theorem logEntryMaxPosition (h : Matches T o obj header) :
    Cls.logEntryMaxPosition (some obj) = .ok o.maxPos := by
  unfold Cls.logEntryMaxPosition
  rw [h.read]
  show Except.ok header.maxPos = _
  rw [h.maxPos]

/-- The data of a new entry goes to the map or behind the byte stream. -/
theorem setData (bytes : List Char) (obj : RadosObject ν) (hobj : obj.bytes = bytes)
    (junk : Bool) (data : String) (size : Option Nat)
    (hroom : bytes.length + data.toList.length < 2 ^ 32) :
    ∃ more table, EntryMatches (ν := ν) (bytes ++ more) (some { data := data }) (some (.entry table)) ∧
      more.length ≤ data.toList.length ∧
      Cls.LogEntry.setData ⟨false, false, junk, "", 0, 0⟩ obj data size =
        (⟨false, table.invalid, table.bytestream, table.data, table.offset, table.length⟩,
          { obj with bytes := bytes ++ more }) := by
  have hinline : ∃ more table, EntryMatches (ν := ν) (bytes ++ more) (some { data := data })
      (some (.entry table)) ∧ more.length ≤ data.toList.length ∧
      ((⟨false, false, false, data, 0, 0⟩ : Cls.LogEntry), obj) =
        (⟨false, table.invalid, table.bytestream, table.data, table.offset, table.length⟩,
          { obj with bytes := bytes ++ more }) := by
    refine ⟨[], ⟨false, false, data, 0, 0⟩, .inline data, Nat.zero_le _, ?_⟩
    rw [List.append_nil, ← hobj]
  unfold Cls.LogEntry.setData
  -- without a threshold, and below it, the data goes into the table
  cases size with
  | none => exact hinline
  | some size =>
    by_cases hs : size ≤ data.toList.length
    · simp only [hs, if_true]
      -- the offset is stored in 32 bits, and the stream is shorter than that
      have hoff : obj.bytes.length % 2 ^ 32 = bytes.length := by
        rw [hobj]
        exact Nat.mod_eq_of_lt (by omega)
      have hlen : data.toList.length % 2 ^ 32 = data.toList.length := Nat.mod_eq_of_lt (by omega)
      refine ⟨data.toList, ⟨false, true, "", bytes.length, data.toList.length⟩, ?_, le_refl _, ?_⟩
      · exact .stream data bytes.length (by simp) (by simp)
      · rw [hoff, hlen, hobj, List.take_length]
        have hdrop : bytes.drop (bytes.length + data.toList.length) = [] :=
          List.drop_eq_nil_of_le (by omega)
        simp [Cls.LogEntry.writeBytes, hdrop, List.takeD_eq_take]
    · simp only [hs, if_false]
      exact hinline

/-- A method on the object ends like the RAM operation, and keeps the relation. -/
def Ends (T : List Nat) (room : Nat) (ram : Ret Unit × LogObject) (ceph : Ret (RadosObject ν)) :
    Prop :=
  (∃ e, ram.1 = .error e ∧ ceph = .error e) ∨
  ∃ obj header, ram.1 = .ok () ∧ ceph = .ok obj ∧ Matches T ram.2 obj header ∧
    obj.bytes.length ≤ room

theorem logEntryWrite (h : Matches T o obj header) {epoch : Nat} (he : 1 ≤ epoch)
    (hepoch : ¬ epoch < o.epoch) {p : Nat} (hlt : p < 2 ^ 63) (hT : ∀ q ∈ T, q ∈ T') (hp : p ∈ T')
    (data : String) {room : Nat} (hroom : obj.bytes.length + data.toList.length ≤ room)
    (hsmall : room < 2 ^ 32) (junk : Indeterminate) :
    Ends T' room (o.write data p) (Cls.logEntryWrite epoch p data junk (some obj)) := by
  unfold Cls.logEntryWrite
  rw [h.guard he, if_neg hepoch, h.positionTrimmed]
  unfold LogObject.write
  by_cases hb : o.belowTrimLimit p = true
  · -- trimmed by the limit: both refuse
    exact Or.inl ⟨.erofs, by simp [hb], by simp [hb]⟩
  · rw [Bool.not_eq_true] at hb
    simp only [hb, Bool.false_eq_true, if_false, Option.getD_some, Cls.LogEntry.read]
    cases hx : o.entries.lookup p with
    -- an entry, live or dead, is never written again
    | some e =>
      have hent := h.entry p
      rw [hx] at hent
      generalize obj.omap.find? (entryKey p) = y at hent
      cases hent <;> exact Or.inl ⟨.erofs, rfl, rfl⟩
    -- the position is free: the same entry is stored on both sides
    | none =>
      obtain ⟨more, table, hmatch, hmore, hset⟩ := setData obj.bytes obj rfl junk.bytestream data
        header.omapMaxSize (by omega)
      rw [(h.entry p).none_iff.mp hx]
      refine Or.inr ⟨_, (header.updateMaxPos p).2, rfl, ?_, h.store hb hlt hT hp hmatch, ?_⟩
      · simp only [bind, Except.bind, Bool.false_eq_true, if_false, hset]
        rfl
      · rw [LogObjectHeader.bytes_writeIf]
        simp only [List.length_append]
        omega

/-- Trimming an entry that is dead already changes neither object in a way that shows. -/
theorem trimDead (h : Matches T o obj header) {p : Nat} {e : LogEntry} {table : Cls.Fbs.LogEntry}
    (he : o.entries.lookup p = some e)
    (htable : obj.omap.find? (entryKey p) = some (.entry table)) (hinv : table.invalid = true) :
    Matches T (o.touch p { e with trimmed := true, data := "" }) obj header := by
  have hmem : p ∈ o.entries := by
    rw [← AList.lookup_isSome, he]
    rfl
  have hmax : max o.maxpos p = o.maxpos := max_eq_left (h.maxPosOk.le p hmem)
  have hkeys : ∀ k, k ∈ (o.touch p { e with trimmed := true, data := "" }).entries →
      k ∈ o.entries := by
    intro k hk
    rcases LogObject.mem_touch.mp hk with rfl | hk
    · exact hmem
    · exact hk
  refine ⟨h.read, h.epoch, h.limit, h.limit_lt, ?_, ⟨?_, ?_, ?_⟩, fun k hk => h.keys k (hkeys k hk),
    fun q => ?_, h.omap⟩
  · -- `maxpos` was at `p` or above already
    rw [h.maxPos, LogObject.maxPos_of_mem hmem,
      LogObject.maxPos_of_mem (LogObject.mem_touch.mpr (Or.inl rfl))]
    simp only [LogObject.touch, hmax]
  · intro k hk
    show k ≤ max o.maxpos p
    rw [hmax]
    exact h.maxPosOk.le k (hkeys k hk)
  · intro k hk
    show max o.maxpos p ∈ T
    rw [hmax]
    exact h.maxPosOk.mem k (hkeys k hk)
  · exact fun hk => absurd (LogObject.mem_touch.mpr (Or.inl rfl)) (hk p)
  · -- the table was invalid before, and what RAM stores there is dead as well
    show EntryMatches obj.bytes ((o.entries.insert p _).lookup q) _
    by_cases hq : q = p
    · rw [hq, AList.lookup_insert, htable]
      exact .dead _ table (by simp) hinv
    · rw [AList.lookup_insert_ne hq]
      exact h.entry q

/-- Invalidating a position that is absent or live and above the limit. -/
theorem invalidate (h : Matches T o obj header) {p : Nat} (hb : o.belowTrimLimit p = false)
    (hlt : p < 2 ^ 63) (hT : ∀ q ∈ T, q ∈ T') (hp : p ∈ T') {e : LogEntry}
    (he : (e.trimmed || e.invalidated) = true) (entry : Cls.LogEntry) :
    Matches T' (o.touch p e)
      (LogObjectHeader.writeIf (header.updateMaxPos p)
        ({ entry with invalid := true }.write obj p)) (header.updateMaxPos p).2 := by
  have hmatch : EntryMatches (ν := ν) (obj.bytes ++ []) (some e)
      (some (.entry ⟨true, entry.bytestream, entry.data, entry.offset, entry.length⟩)) :=
    .dead e _ he rfl
  have hstore := h.store hb hlt hT hp hmatch
  rw [List.append_nil] at hstore
  exact hstore

/-- Invalidating an entry leaves the byte stream alone. -/
theorem bytes_invalidate (p : Nat) (change : Bool × Cls.LogObjectHeader) (entry : Cls.LogEntry)
    (obj : RadosObject ν) :
    (LogObjectHeader.writeIf change (entry.write obj p)).bytes = obj.bytes := by
  rw [LogObjectHeader.bytes_writeIf]
  rfl

/-- `Fill` on an object that both sides have. -/
theorem logEntryFill (h : Matches T o obj header) {epoch : Nat} (he : 1 ≤ epoch)
    (hepoch : ¬ epoch < o.epoch) {p : Nat} (hlt : p < 2 ^ 63) (hT : ∀ q ∈ T, q ∈ T') (hp : p ∈ T')
    (junk : Indeterminate) :
    Ends T' obj.bytes.length (o.fill p)
      (Cls.logEntryInvalidate epoch p false false junk (some obj)) := by
  unfold Cls.logEntryInvalidate
  rw [if_neg (by simp), h.guard he, if_neg hepoch, h.positionTrimmed]
  unfold LogObject.fill
  by_cases hb : o.belowTrimLimit p = true
  · -- trimmed by the limit: `Fill` has nothing to do
    refine Or.inr ⟨obj, header, by simp [hb], by simp [hb], ?_, le_refl _⟩
    rw [if_pos hb]
    exact h.mono hT
  · rw [Bool.not_eq_true] at hb
    simp only [hb, Bool.false_eq_true, if_false, Option.getD_some, Cls.LogEntry.read]
    have hent := h.entry p
    generalize o.entries.lookup p = x at hent
    generalize obj.omap.find? (entryKey p) = y at hent
    cases hent with
    -- never written: both store a dead entry
    | absent =>
      exact Or.inr ⟨_, _, rfl, rfl, h.invalidate hb hlt hT hp rfl _,
        le_of_eq (congrArg List.length (bytes_invalidate ..))⟩
    -- a live entry is not filled
    | inline d => exact Or.inl ⟨.erofs, rfl, rfl⟩
    | stream d offset hle heq => exact Or.inl ⟨.erofs, rfl, rfl⟩
    -- filled before: nothing changes
    | dead e table hdead hinv =>
      refine Or.inr ⟨obj, header, by simp [hdead], by simp [bind, Except.bind, hinv], ?_, le_refl _⟩
      simp only [hdead, if_true]
      exact h.mono hT

/-- `Trim` of one position on an object that both sides have. -/
theorem logEntryTrim (h : Matches T o obj header) {epoch : Nat} (he : 1 ≤ epoch)
    (hepoch : ¬ epoch < o.epoch) {p : Nat} (hlt : p < 2 ^ 63) (hT : ∀ q ∈ T, q ∈ T') (hp : p ∈ T')
    (junk : Indeterminate) :
    Ends T' obj.bytes.length (.ok (), o.trim p false false)
      (Cls.logEntryInvalidate epoch p true false junk (some obj)) := by
  unfold Cls.logEntryInvalidate
  rw [if_neg (by simp), h.guard he, if_neg hepoch, h.positionTrimmed]
  by_cases hb : o.belowTrimLimit p = true
  · -- trimmed by the limit already
    refine Or.inr ⟨obj, header, rfl, by simp [hb], ?_, le_refl _⟩
    simp only [LogObject.trim, hb, Bool.false_eq_true, if_false, if_true]
    exact h.mono hT
  · rw [Bool.not_eq_true] at hb
    have htrim : o.trim p false false = o.trimEntry p := by simp [LogObject.trim, hb]
    rw [htrim]
    unfold LogObject.trimEntry
    simp only [hb, Bool.false_eq_true, if_false, Option.getD_some, Cls.LogEntry.read]
    have hent := h.entry p
    generalize hx : o.entries.lookup p = x at hent
    generalize hy : obj.omap.find? (entryKey p) = y at hent
    have hlen := fun change entry => le_of_eq (congrArg List.length
      (bytes_invalidate p change entry obj))
    cases hent with
    -- never written: the dead entry is the first at this position
    | absent => exact Or.inr ⟨_, _, rfl, rfl, h.invalidate hb hlt hT hp rfl _, hlen _ _⟩
    -- a live entry loses its data
    | inline d => exact Or.inr ⟨_, _, rfl, rfl, h.invalidate hb hlt hT hp rfl _, hlen _ _⟩
    | stream d offset hle heq =>
      exact Or.inr ⟨_, _, rfl, rfl, h.invalidate hb hlt hT hp rfl _, hlen _ _⟩
    -- dead already: Ceph writes nothing
    | dead e table hdead hinv =>
      refine Or.inr ⟨obj, header, rfl, by simp [bind, Except.bind, hinv], ?_, le_refl _⟩
      exact (h.trimDead hx hy hinv).mono hT

/-- The limit is raised; the entries stay, or are removed by the client afterwards. -/
theorem logEntryLimit (h : Matches T o obj header) {epoch : Nat} (he : 1 ≤ epoch)
    (hepoch : ¬ epoch < o.epoch) (p : Nat) (junk : Indeterminate) :
    Cls.logEntryInvalidate epoch p true true junk (some obj) =
      .ok (LogObjectHeader.writeIf (header.updateTrimLimit p) obj) := by
  unfold Cls.logEntryInvalidate
  rw [if_neg (by simp), h.guard he, if_neg hepoch]
  rfl

/-- A stale caller is turned away by every method. -/
theorem stale (h : Matches T o obj header) {epoch : Nat} (he : 1 ≤ epoch) (hepoch : epoch < o.epoch)
    (p : Nat) (data : String) (force limit : Bool) (hforce : limit = true → force = true)
    (junk : Indeterminate) :
    Cls.logEntryWrite epoch p data junk (some obj) = .error .espipe ∧
      Cls.logEntryInvalidate epoch p force limit junk (some obj) = .error .espipe := by
  constructor
  · unfold Cls.logEntryWrite
    rw [h.guard he, if_pos hepoch]
  · unfold Cls.logEntryInvalidate
    rw [if_neg (by cases limit <;> simp_all), h.guard he, if_pos hepoch]

end Matches

/-! ## Backends -/

/-- The bytes a call may write to an object. -/
def Call.bytes (oid : String) : {α : Type} → Call ν α → Nat
  | _, .write oid' data _ _ => if oid' = oid then data.toList.length else 0
  | _, _ => 0

/-- The bytes that the calls of a history may have written to an object. -/
def bytesIn (oid : String) (h : List (Done ν)) : Nat := (h.map (fun d => d.call.bytes oid)).sum

/-- The bytes that a call writes are added to those of the calls before. -/
theorem bytesIn_append (oid : String) (h : List (Done ν)) (d : Done ν) :
    bytesIn oid (h ++ [d]) = bytesIn oid h + d.call.bytes oid := by
  simp [bytesIn]

/-- The object under a name, on both sides. -/
inductive ObjectMatches (T : List Nat) :
    Option (Object ν) → Option (RadosObject ν) → Prop where
  | absent : ObjectMatches T none none
  | present (o : LogObject) (obj : RadosObject ν) (header : Cls.LogObjectHeader) :
      Matches T o obj header → ObjectMatches T (some (.log o)) (some obj)

/-- More positions may count as touched. -/
theorem ObjectMatches.mono {T T' : List Nat} {x : Option (Object ν)}
    {y : Option (RadosObject ν)} (hm : ObjectMatches T x y) (hT : ∀ q ∈ T, q ∈ T') :
    ObjectMatches T' x y := by
  cases hm with
  | absent => exact .absent
  | present o obj header hm => exact .present o obj header (hm.mono hT)

/-- The RAM backend and the pool after the calls of `h`. -/
structure CephAgrees (h : List (Done ν)) (r : RAMBackend ν) (pool : Pool ν) : Prop where
  stores : r.blackhole = false
  object : ∀ oid, ObjectMatches (touched (onOid oid h)) (r.objects.lookup oid) (pool.lookup oid)
  bytes : ∀ oid obj, pool.lookup oid = some obj → obj.bytes.length ≤ bytesIn oid h

namespace CephAgrees

variable {h : List (Done ν)} {r : RAMBackend ν} {pool : Pool ν}

/-- A call that changes neither side. -/
theorem same (hg : CephAgrees h r pool) (d : Done ν) : CephAgrees (h ++ [d]) r pool := by
  refine ⟨hg.stores, fun oid => (hg.object oid).mono (touched_onOid_subset oid h d), ?_⟩
  intro oid obj hobj
  rw [bytesIn_append]
  exact le_trans (hg.bytes oid obj hobj) (Nat.le_add_right _ _)

/-- A call that changes one object. -/
theorem set (hg : CephAgrees h r pool) (d : Done ν) {oid : String} {o : LogObject}
    {pool' : Pool ν} {obj : RadosObject ν} {header : Cls.LogObjectHeader}
    (hobj : pool'.lookup oid = some obj) (hsame : SameBut oid pool pool')
    (hm : Matches (touched (onOid oid (h ++ [d]))) o obj header)
    (hbytes : obj.bytes.length ≤ bytesIn oid (h ++ [d])) :
    CephAgrees (h ++ [d]) (r.setLog oid o) pool' := by
  refine ⟨hg.stores, fun key => ?_, fun key obj' hobj' => ?_⟩
  · -- the object of the call has changed on both sides, every other on neither
    rw [RAMBackend.lookup_setLog]
    by_cases hkey : key = oid
    · rw [if_pos hkey, hkey, hobj]
      exact .present o obj header hm
    · rw [if_neg hkey, hsame key hkey]
      exact (hg.object key).mono (touched_onOid_subset key h d)
  · -- the byte stream has grown by what the call wrote
    by_cases hkey : key = oid
    · rw [hkey, hobj] at hobj'
      cases hobj'
      rw [hkey]
      exact hbytes
    · rw [hsame key hkey] at hobj'
      exact (hg.same d).bytes key obj' hobj'

end CephAgrees

/-- The object under `oid` exists on both sides. -/
structure BothHave (T : List Nat) (r : RAMBackend ν) (pool : Pool ν) (oid : String)
    (o : LogObject) (obj : RadosObject ν) (header : Cls.LogObjectHeader) : Prop where
  ram : r.objects.lookup oid = some (.log o)
  ceph : pool.lookup oid = some obj
  rel : Matches T o obj header

/-- Both sides have the object, or neither has. -/
theorem CephAgrees.cases {h : List (Done ν)} {r : RAMBackend ν} {pool : Pool ν}
    (hg : CephAgrees h r pool) (oid : String) :
    (r.objects.lookup oid = none ∧ pool.lookup oid = none) ∨
    ∃ o obj header, BothHave (touched (onOid oid h)) r pool oid o obj header := by
  have ho := hg.object oid
  generalize hx : r.objects.lookup oid = x at ho
  generalize hy : pool.lookup oid = y at ho
  cases ho with
  | absent => exact Or.inl ⟨rfl, rfl⟩
  | present o obj header hm => exact Or.inr ⟨o, obj, header, hx, hy, hm⟩

/-- An object that is missing fails the check of every I/O call. -/
theorem RAMBackend.checkIo_absent {r : RAMBackend ν} {oid : String} {epoch : Nat} (ho : oid ≠ "")
    (he : 1 ≤ epoch) (h : r.objects.lookup oid = none) : r.checkIo oid epoch = .error .enoent := by
  have he' : epoch ≠ 0 := by omega
  simp [RAMBackend.checkIo, RAMBackend.checkEpoch, ho, he', h]

/-- An object that is there fails the check only for an old epoch. -/
theorem RAMBackend.checkIo_present {r : RAMBackend ν} {oid : String} {epoch : Nat} {o : LogObject}
    (ho : oid ≠ "") (he : 1 ≤ epoch) (h : r.objects.lookup oid = some (.log o)) :
    r.checkIo oid epoch = if epoch < o.epoch then .error .espipe else .ok o := by
  have he' : epoch ≠ 0 := by omega
  simp [RAMBackend.checkIo, RAMBackend.checkEpoch, ho, he', h]

/-! ## One call -/

/-- A call on both backends that is answered alike and keeps the relation. -/
def CephFollows (be : CephBackend) (h : List (Done ν)) (r : RAMBackend ν) (pool : Pool ν)
    {α : Type} (c : Call ν α) : Prop :=
  (r.exec c).1 = (be.exec pool c).1 ∧
    CephAgrees (h ++ [⟨c, (r.exec c).1⟩]) (r.exec c).2 (be.exec pool c).2

section

variable {be : CephBackend} {h : List (Done ν)} {r s : RAMBackend ν} {pool m : Pool ν}

/-- Equal answers and stores that agree afterwards. -/
theorem CephFollows.of_eq {α : Type} {c : Call ν α} {x : α} (hr : r.exec c = (x, s))
    (hc : be.exec pool c = (x, m)) (hg : CephAgrees (h ++ [⟨c, x⟩]) s m) :
    CephFollows be h r pool c := by
  unfold CephFollows
  rw [hr, hc]
  exact ⟨rfl, hg⟩

/-- The calls that check the epoch and then work on the object. -/
theorem CephAgrees.lift (hg : CephAgrees h r pool) {c : Call ν (Ret Unit)} {oid : String}
    {epoch : Nat} (ho : oid ≠ "") (he : 1 ≤ epoch) (f : LogObject → Ret Unit × LogObject)
    (method : Option (RadosObject ν) → Ret (RadosObject ν))
    (hram : r.exec c = match r.checkIo oid epoch with
      | .error e => (.error e, r)
      | .ok o =>
        match f o with
        | (.ok (), o') => (.ok (), r.setLog oid o')
        | (.error e, _) => (.error e, r))
    (hceph : be.exec pool c = pool.operate oid method)
    (hnone : method none = .error .enoent)
    (hstale : ∀ {o obj header}, Matches (touched (onOid oid h)) o obj header → epoch < o.epoch →
      method (some obj) = .error .espipe)
    (hends : ∀ {o obj header}, pool.lookup oid = some obj →
      Matches (touched (onOid oid h)) o obj header → ¬ epoch < o.epoch →
      Matches.Ends (touched (onOid oid (h ++ [⟨c, .ok ()⟩]))) (bytesIn oid (h ++ [⟨c, .ok ()⟩]))
        (f o) (method (some obj))) :
    CephFollows be h r pool c := by
  have hfail : ∀ e, method (pool.lookup oid) = .error e → be.exec pool c = (.error e, pool) :=
    fun e hm => hceph.trans (Pool.operate_error hm)
  -- the object is missing, the epoch is old, or the method itself decides
  rcases hg.cases oid with ⟨hr, hp⟩ | ⟨o, obj, header, hb⟩
  · rw [RAMBackend.checkIo_absent ho he hr] at hram
    exact CephFollows.of_eq hram (hfail .enoent (hp ▸ hnone)) (hg.same _)
  · rw [RAMBackend.checkIo_present ho he hb.ram] at hram
    by_cases hst : epoch < o.epoch
    · rw [if_pos hst] at hram
      exact CephFollows.of_eq hram (hfail .espipe (hb.ceph ▸ hstale hb.rel hst)) (hg.same _)
    · rw [if_neg hst] at hram
      dsimp only at hram
      have hcase := hends hb.ceph hb.rel hst
      generalize f o = y at hram hcase
      obtain ⟨y, o'⟩ := y
      rcases hcase with ⟨e, hf, hm⟩ | ⟨obj', header', hf, hm, hrel, hbytes⟩
      · cases hf
        exact CephFollows.of_eq hram (hfail e (hb.ceph ▸ hm)) (hg.same _)
      · cases hf
        have hok := hceph.trans (Pool.operate_ok (hb.ceph ▸ hm))
        exact CephFollows.of_eq hram hok
          (hg.set _ (AList.lookup_insert _) (sameBut_insert pool oid obj') hrel hbytes)

/-- What a call touches is touched in the history that ends with it. -/
theorem mem_touched_of {d : Done ν} {oid : String} {p : Nat} (hoid : d.call.oid = some oid)
    (hp : d.touches = some p) : p ∈ touched (onOid oid (h ++ [d])) := by
  rw [touched_onOid_append, if_pos hoid, hp]
  simp

/-- `Write`: the payload still fits into the byte stream. -/
theorem cephFollows_write (hg : CephAgrees h r pool) {oid : String} (ho : oid ≠ "") {epoch p : Nat}
    (he : 1 ≤ epoch) (hlt : p < 2 ^ 63) (data : String)
    (hroom : bytesIn oid (h ++ [⟨.write oid data epoch p, .ok ()⟩]) < 2 ^ 32) :
    CephFollows be h r pool (.write oid data epoch p) := by
  refine hg.lift ho he (fun o => o.write data p) (logEntryWrite epoch p data be.junk) ?_ ?_ rfl
    ?_ ?_
  · show r.write oid data epoch p = _
    unfold RAMBackend.write
    rw [hg.stores]
    rfl
  · show be.write pool oid data epoch p = _
    unfold CephBackend.write
    rw [if_neg ho]
  · -- an old epoch
    intro o obj header hm hst
    exact (hm.stale he hst p data false false (by simp) be.junk).1
  · -- the method on the object that both sides have
    intro o obj header hobj hm hst
    refine hm.logEntryWrite he hst hlt (touched_onOid_subset oid h _)
      (mem_touched_of rfl rfl) data ?_ hroom be.junk
    rw [bytesIn_append]
    have := hg.bytes oid obj hobj
    simp only [Call.bytes, if_true]
    omega

/-- A history that goes on has written no less. -/
theorem bytesIn_le (oid : String) (h : List (Done ν)) (d : Done ν) {n : Nat}
    (hn : n ≤ bytesIn oid h) : n ≤ bytesIn oid (h ++ [d]) := by
  rw [bytesIn_append]
  omega

/-- More room does no harm. -/
theorem Matches.Ends.room {T : List Nat} {n n' : Nat} {ram : Ret Unit × LogObject}
    {ceph : Ret (RadosObject ν)} (h : Matches.Ends T n ram ceph) (hn : n ≤ n') :
    Matches.Ends T n' ram ceph := by
  rcases h with h | ⟨obj, header, h₁, h₂, h₃, h₄⟩
  · exact Or.inl h
  · exact Or.inr ⟨obj, header, h₁, h₂, h₃, le_trans h₄ hn⟩

/-- `Fill` on both sides. -/
theorem cephFollows_fill (hg : CephAgrees h r pool) {oid : String} (ho : oid ≠ "") {epoch p : Nat}
    (he : 1 ≤ epoch) (hlt : p < 2 ^ 63) : CephFollows be h r pool (.fill oid epoch p) := by
  refine hg.lift ho he (fun o => o.fill p)
    (logEntryInvalidate epoch p false false be.junk) rfl ?_ rfl ?_ ?_
  · show be.fill pool oid epoch p = _
    unfold CephBackend.fill
    rw [if_neg ho]
  · intro o obj header hm hst
    exact (hm.stale he hst p "" false false (by simp) be.junk).2
  · intro o obj header hobj hm hst
    exact (hm.logEntryFill he hst hlt (touched_onOid_subset oid h _) (mem_touched_of rfl rfl)
      be.junk).room (bytesIn_le oid h _ (hg.bytes oid obj hobj))

/-- `Trim` of one position on both sides. -/
theorem cephFollows_trim_single (hg : CephAgrees h r pool) {oid : String} (ho : oid ≠ "")
    {epoch p : Nat} (he : 1 ≤ epoch) (hlt : p < 2 ^ 63) :
    CephFollows be h r pool (.trim oid epoch p false false) := by
  refine hg.lift ho he (fun o => (.ok (), o.trim p false false))
    (logEntryInvalidate epoch p true false be.junk) rfl ?_ rfl ?_ ?_
  · show be.trim pool oid epoch p false false = _
    simp only [CephBackend.trim, ho, Bool.false_and, Bool.false_eq_true, if_false, Bool.not_false,
      if_true]
    split <;> next heq => rw [heq]
  · intro o obj header hm hst
    exact (hm.stale he hst p "" true false (by simp) be.junk).2
  · intro o obj header hobj hm hst
    exact (hm.logEntryTrim he hst hlt (touched_onOid_subset oid h _) (mem_touched_of rfl rfl)
      be.junk).room (bytesIn_le oid h _ (hg.bytes oid obj hobj))

/-- `Trim` of a range on both sides. -/
theorem cephFollows_trim_range (hg : CephAgrees h r pool) {oid : String} (ho : oid ≠ "")
    {epoch p : Nat} (he : 1 ≤ epoch) (hlt : p < 2 ^ 63) :
    CephFollows be h r pool (.trim oid epoch p true false) := by
  refine hg.lift ho he (fun o => (.ok (), o.trim p true false))
    (logEntryInvalidate epoch p true true be.junk) rfl ?_ rfl ?_ ?_
  · show be.trim pool oid epoch p true false = _
    simp only [CephBackend.trim, ho, Bool.false_and, Bool.false_eq_true, if_false, Bool.not_false,
      if_true]
    split <;> next heq => rw [heq]
  · intro o obj header hm hst
    exact (hm.stale he hst p "" true true (by simp) be.junk).2
  · intro o obj header hobj hm hst
    refine Or.inr ⟨_, (header.updateTrimLimit p).2, rfl, hm.logEntryLimit he hst p be.junk, ?_, ?_⟩
    · rw [LogObject.trim_range]
      exact (hm.updateTrimLimit hlt).mono (touched_onOid_subset oid h _)
    · rw [LogObjectHeader.bytes_writeIf]
      exact bytesIn_le oid h _ (hg.bytes oid obj hobj)

/-- The pool after a full trim that passed its checks and covers every entry of the object. -/
theorem CephBackend.trim_full_ok (be : CephBackend) {oid : String} {obj obj₁ : RadosObject ν}
    (hobj : pool.lookup oid = some obj) (ho : oid ≠ "") {epoch p : Nat}
    (hlimit : logEntryInvalidate epoch p true true be.junk (some obj) = .ok obj₁)
    (hentries : ∀ kv ∈ obj₁.omap.toList, ∃ q, kv.1 = entryKey q ∧ q < 2 ^ 64 ∧ q ≤ p) :
    ∃ pool', be.trim pool oid epoch p true true = (.ok (), pool') ∧
      pool'.lookup oid = some { obj₁ with omap := .empty, bytes := [] } ∧
      SameBut oid pool pool' := by
  -- first the limit is set, then the entries are removed one by one, then the stream is cut
  have hop : pool.operate oid (logEntryInvalidate epoch p true true be.junk) =
      (.ok (), pool.insert oid obj₁) :=
    Pool.operate_ok (hobj ▸ hlimit)
  have hobj₁ : (pool.insert oid obj₁).lookup oid = some obj₁ := AList.lookup_insert _
  have hkeys : ∀ kv ∈ obj₁.omap.toList, "" < kv.1 ∧
      ∃ q, kv.1 = entryKey q ∧ q < 2 ^ 64 ∧ q ≤ p := by
    intro kv hkv
    obtain ⟨q, hq, hlt, hle⟩ := hentries kv hkv
    exact ⟨hq ▸ empty_lt_entryKey q, q, hq, hlt, hle⟩
  have hcount : keyCount (pool.insert oid obj₁) oid = obj₁.omap.toList.length := by
    unfold keyCount
    rw [hobj₁]
  obtain ⟨pool₂, hrun, hobj₂, hsame⟩ := trimEntries_ok (keyCount (pool.insert oid obj₁) oid + 1)
    hobj₁ hkeys (by omega)
  let obj₃ : RadosObject ν := { obj₁ with omap := .empty, bytes := [] }
  have htrunc : pool₂.trunc oid = (.ok (), pool₂.insert oid obj₃) := by
    apply Pool.operate_ok
    rw [hobj₂]
  refine ⟨pool₂.insert oid obj₃, ?_, AList.lookup_insert _, ?_⟩
  · simp only [CephBackend.trim, Bool.not_true, Bool.and_false, Bool.false_eq_true, if_false, ho,
      hop, hrun, htrunc]
  · exact ((sameBut_insert pool oid obj₁).trans hsame).trans (sameBut_insert pool₂ oid obj₃)

/-- A full trim on both sides: every entry of the object is at or below its position. -/
theorem cephFollows_trim_full (hg : CephAgrees h r pool) {oid : String} (ho : oid ≠ "")
    {epoch p : Nat} (he : 1 ≤ epoch) (hlt : p < 2 ^ 63)
    (hfull : ∀ q ∈ touched (onOid oid h), q ≤ p) :
    CephFollows be h r pool (.trim oid epoch p true true) := by
  have hram : r.exec (.trim oid epoch p true true : Call ν _) = match r.checkIo oid epoch with
      | .error e => (.error e, r)
      | .ok o => (.ok (), r.setLog oid (o.trim p true true)) := rfl
  have hceph : ∀ e, logEntryInvalidate epoch p true true be.junk (pool.lookup oid) = .error e →
      be.exec pool (.trim oid epoch p true true : Call ν _) = (.error e, pool) := by
    intro e hm
    show be.trim pool oid epoch p true true = _
    simp [CephBackend.trim, ho, Pool.operate_error hm]
  rcases hg.cases oid with ⟨hr, hp⟩ | ⟨o, obj, header, hb⟩
  · rw [RAMBackend.checkIo_absent ho he hr] at hram
    exact CephFollows.of_eq hram (hceph .enoent (hp ▸ rfl)) (hg.same _)
  · rw [RAMBackend.checkIo_present ho he hb.ram] at hram
    by_cases hst : epoch < o.epoch
    · rw [if_pos hst] at hram
      have hm := (hb.rel.stale he hst p "" true true (by simp) be.junk).2
      exact CephFollows.of_eq hram (hceph .espipe (hb.ceph ▸ hm)) (hg.same _)
    · rw [if_neg hst] at hram
      -- `trim_entries` finds only keys of positions that it may remove
      have hentries : ∀ kv ∈ (LogObjectHeader.writeIf (header.updateTrimLimit p) obj).omap.toList,
          ∃ q, kv.1 = entryKey q ∧ q < 2 ^ 64 ∧ q ≤ p := by
        intro kv hkv
        obtain ⟨q, hq, hmem⟩ := (hb.rel.updateTrimLimit hlt).entry_of_key hkv
        obtain ⟨hT, hq63⟩ := (hb.rel.updateTrimLimit hlt).keys q hmem
        exact ⟨q, hq, by omega, hfull q hT⟩
      obtain ⟨pool', hrun, hobj', hsame⟩ :=
        CephBackend.trim_full_ok be hb.ceph ho (hb.rel.logEntryLimit he hst p be.junk) hentries
      have hrel := (hb.rel.full hlt hfull).mono
        (touched_onOid_subset oid h ⟨.trim oid epoch p true true, .ok ()⟩)
      have htrim : ({ o.raiseTrimLimit p with entries := ∅ } : LogObject) = o.trim p true true := by
        simp [LogObject.trim]
      rw [htrim] at hrel
      exact CephFollows.of_eq hram hrun (hg.set _ hobj' hsame hrel (Nat.zero_le _))

/-- `Seal` on both sides. -/
theorem cephFollows_seal (hg : CephAgrees h r pool) {oid : String} (ho : oid ≠ "") {epoch : Nat}
    (he : 1 ≤ epoch) : CephFollows be h r pool (.seal oid epoch) := by
  have he' : epoch ≠ 0 := by omega
  have hceph : be.exec pool (.seal oid epoch : Call ν _) =
      pool.operate oid (logEntrySeal epoch be.sealSize be.junk) := by
    show be.seal pool oid epoch = _
    simp only [CephBackend.seal, ho, if_false]
  rcases hg.cases oid with ⟨hr, hp⟩ | ⟨o, obj, header, hb⟩
  · have hram : r.exec (.seal oid epoch : Call ν _) = (.ok (), r.setLog oid { epoch := epoch }) := by
      show r.seal oid epoch = _
      simp [RAMBackend.seal, ho, he', hr]
    -- the header of a new object holds whatever `max_pos_` was, behind the flag `empty`
    let header : Cls.LogObjectHeader :=
      { LogObjectHeader.new be.junk epoch with omapMaxSize_ := be.sealSize }
    have hm : logEntrySeal epoch be.sealSize be.junk (pool.lookup oid) = .ok (header.write {}) := by
      simp [hp, logEntrySeal, LogObjectHeader.read, header, he']
    have hrel : Matches (touched (onOid oid (h ++ [⟨.seal oid epoch, .ok ()⟩])))
        { epoch := epoch } (header.write ({} : RadosObject ν)) header := by
      have hlim : ∀ n, (none : Option Nat) = some n → n < 2 ^ 63 := by simp
      refine ⟨LogObjectHeader.read_write hlim _, rfl, rfl, hlim, rfl,
        ⟨?_, ?_, fun _ => Or.inl rfl⟩, ?_, fun q => .absent, fun kv hkv => (List.not_mem_nil hkv).elim⟩
      all_goals exact fun k hk => absurd hk (AList.notMem_empty k)
    exact CephFollows.of_eq hram (hceph.trans (Pool.operate_ok hm))
      (hg.set _ (AList.lookup_insert _) (sameBut_insert pool oid _) hrel (Nat.zero_le _))
  · have hread := hb.rel.read
    by_cases hle : epoch ≤ o.epoch
    · have hram : r.exec (.seal oid epoch : Call ν _) = (.error .espipe, r) := by
        show r.seal oid epoch = _
        simp [RAMBackend.seal, ho, he', hb.ram, hle]
      have hm : logEntrySeal epoch be.sealSize be.junk (pool.lookup oid) = .error .espipe := by
        simp [hb.ceph, logEntrySeal, hread, he', hb.rel.epoch, hle]
      exact CephFollows.of_eq hram (hceph.trans (Pool.operate_error hm)) (hg.same _)
    · have hram : r.exec (.seal oid epoch : Call ν _) =
          (.ok (), r.setLog oid { o with epoch := epoch }) := by
        show r.seal oid epoch = _
        simp [RAMBackend.seal, ho, he', hb.ram, hle]
      let header' : Cls.LogObjectHeader := { header with omapMaxSize_ := be.sealSize, epoch := epoch }
      have hm : logEntrySeal epoch be.sealSize be.junk (pool.lookup oid) = .ok (header'.write obj) := by
        simp [hb.ceph, logEntrySeal, hread, he', hb.rel.epoch, hle, header']
      have hrel := hb.rel.mono (touched_onOid_subset oid h ⟨.seal oid epoch, .ok ()⟩)
      have hlim : ∀ n, header'.trimLimit = some n → n < 2 ^ 63 :=
        fun n hn => hrel.limit_lt n (hrel.limit.symm.trans hn)
      have hrel' : Matches (touched (onOid oid (h ++ [⟨.seal oid epoch, .ok ()⟩])))
          { o with epoch := epoch } (header'.write obj) header' :=
        ⟨LogObjectHeader.read_write hlim obj, rfl, hrel.limit, hrel.limit_lt, hrel.maxPos,
          ⟨hrel.maxPosOk.le, hrel.maxPosOk.mem, hrel.maxPosOk.covered⟩, hrel.keys, hrel.entry,
          hrel.omap⟩
      exact CephFollows.of_eq hram (hceph.trans (Pool.operate_ok hm))
        (hg.set _ (AList.lookup_insert _) (sameBut_insert pool oid _) hrel'
          (bytesIn_le oid h _ (hg.bytes oid obj hb.ceph)))

/-- `Read` on both sides. -/
theorem cephFollows_read (hg : CephAgrees h r pool) {oid : String} (ho : oid ≠ "") {epoch : Nat}
    (he : 1 ≤ epoch) (p : Nat) : CephFollows be h r pool (.read oid epoch p) := by
  refine ⟨?_, hg.same _⟩
  show r.read oid epoch p = be.read pool oid epoch p
  unfold RAMBackend.read CephBackend.read
  rw [if_neg ho]
  unfold Pool.query
  rcases hg.cases oid with ⟨hr, hp⟩ | ⟨o, obj, header, hb⟩
  · rw [RAMBackend.checkIo_absent ho he hr, hp]
    rfl
  · rw [RAMBackend.checkIo_present ho he hb.ram, hb.ceph, hb.rel.logEntryRead he]
    by_cases hst : epoch < o.epoch
    · rw [if_pos hst, if_pos hst]
    · rw [if_neg hst, if_neg hst]

/-- `MaxPos` on both sides. -/
theorem cephFollows_maxPos (hg : CephAgrees h r pool) (oid : String) :
    CephFollows be h r pool (.maxPos oid) := by
  refine ⟨?_, hg.same _⟩
  show r.maxPos oid = CephBackend.maxPos pool oid
  unfold RAMBackend.maxPos CephBackend.maxPos Pool.query
  by_cases ho : oid = ""
  · rw [if_pos ho, if_pos ho]
  · rw [if_neg ho, if_neg ho]
    rcases hg.cases oid with ⟨hr, hp⟩ | ⟨o, obj, header, hb⟩
    · rw [hr, hp]
      rfl
    · rw [hb.ram, hb.ceph, hb.rel.logEntryMaxPosition]

end

/-! ## Whole runs -/

/-- The entry calls that the log layer may make, on any object. -/
inductive OnEntries : {α : Type} → Call ν α → Prop where
  | seal (oid : String) (epoch : Nat) : 1 ≤ epoch → OnEntries (.seal oid epoch)
  | read (oid : String) (epoch position : Nat) : 1 ≤ epoch → position < 2 ^ 63 →
      OnEntries (.read oid epoch position)
  | write (oid data : String) (epoch position : Nat) : 1 ≤ epoch → position < 2 ^ 63 →
      OnEntries (.write oid data epoch position)
  | fill (oid : String) (epoch position : Nat) : 1 ≤ epoch → position < 2 ^ 63 →
      OnEntries (.fill oid epoch position)
  | trim (oid : String) (epoch position : Nat) (trimLimit trimFull : Bool) : 1 ≤ epoch →
      position < 2 ^ 63 → OnEntries (.trim oid epoch position trimLimit trimFull)
  | maxPos (oid : String) : OnEntries (.maxPos oid)

/-- A call, and the backend instance it is made through: instances on one pool may have different
    options. -/
abbrev CephCall (ν : Type) := CephBackend × AnyCall ν

/-- The calls are entry calls, the size thresholds fit in 31 bits, and a full trim covers every
    position touched so far on its object. -/
def EntryDisciplined (h : List (Done ν)) (b : RAMBackend ν) : List (CephCall ν) → Prop
  | [] => True
  | (be, ⟨_, c⟩) :: cs =>
    (∀ n, be.omapMaxSize = some n → n < 2 ^ 31) ∧ OnEntries c ∧ FullTrimOk h c ∧
      EntryDisciplined (h ++ [⟨c, (b.exec c).1⟩]) (b.exec c).2 cs

/-- The bytes that a list of calls writes to an object at most. -/
def bytesOf (oid : String) (calls : List (AnyCall ν)) : Nat :=
  (calls.map (fun c => c.2.bytes oid)).sum

/-- The answers of the Ceph backend to a list of calls. -/
def CephBackend.answers (pool : Pool ν) : List (CephCall ν) → List (Done ν)
  | [] => []
  | (be, ⟨_, c⟩) :: cs => ⟨c, (be.exec pool c).1⟩ :: answers (be.exec pool c).2 cs

/-- The empty object name: both backends refuse it with `-EINVAL`. -/
theorem exec_empty_oid (r : RAMBackend ν) (pool : Pool ν) (be : CephBackend) :
    (∀ e, r.seal "" e = (.error .einval, r) ∧ be.seal pool "" e = (.error .einval, pool)) ∧
    (∀ e p, r.read "" e p = .error .einval ∧ be.read pool "" e p = .error .einval) ∧
    (∀ d e p, r.write "" d e p = (.error .einval, r) ∧
      be.write pool "" d e p = (.error .einval, pool)) ∧
    (∀ e p, r.fill "" e p = (.error .einval, r) ∧ be.fill pool "" e p = (.error .einval, pool)) ∧
    (∀ e p l f, r.trim "" e p l f = (.error .einval, r) ∧
      be.trim pool "" e p l f = (.error .einval, pool)) := by
  refine ⟨fun e => ⟨rfl, rfl⟩, fun e p => ⟨rfl, rfl⟩, fun d e p => ⟨rfl, rfl⟩,
    fun e p => ⟨rfl, rfl⟩, fun e p l f => ?_⟩
  cases l <;> cases f <;> exact ⟨rfl, rfl⟩

/-- **One call**: both backends give the same answer and stay related. -/
theorem CephAgrees.exec {h : List (Done ν)} {r : RAMBackend ν} {pool : Pool ν}
    (hg : CephAgrees h r pool) (be : CephBackend) {α : Type} {c : Call ν α} (hc : OnEntries c)
    (hok : FullTrimOk h c) (hroom : ∀ oid, bytesIn oid h + c.bytes oid < 2 ^ 32) :
    CephFollows be h r pool c := by
  -- the name of the object is checked first, by both
  obtain ⟨hseal, hread, hwrite, hfill, htrim⟩ := exec_empty_oid r pool be
  cases hc with
  | «seal» oid epoch he =>
    by_cases ho : oid = ""
    · subst ho
      exact CephFollows.of_eq (hseal epoch).1 (hseal epoch).2 (hg.same _)
    · exact cephFollows_seal hg ho he
  | read oid epoch p he hp =>
    by_cases ho : oid = ""
    · subst ho
      exact ⟨(hread epoch p).1.trans (hread epoch p).2.symm, hg.same _⟩
    · exact cephFollows_read hg ho he p
  | write oid data epoch p he hp =>
    by_cases ho : oid = ""
    · subst ho
      exact CephFollows.of_eq (hwrite data epoch p).1 (hwrite data epoch p).2 (hg.same _)
    · refine cephFollows_write hg ho he hp data ?_
      rw [bytesIn_append]
      exact hroom oid
  | fill oid epoch p he hp =>
    by_cases ho : oid = ""
    · subst ho
      exact CephFollows.of_eq (hfill epoch p).1 (hfill epoch p).2 (hg.same _)
    · exact cephFollows_fill hg ho he hp
  | trim oid epoch p l f he hp =>
    by_cases ho : oid = ""
    · subst ho
      exact CephFollows.of_eq (htrim epoch p l f).1 (htrim epoch p l f).2 (hg.same _)
    · cases l with
      | true =>
        cases f with
        | true => exact cephFollows_trim_full hg ho he hp hok
        | false => exact cephFollows_trim_range hg ho he hp
      | false =>
        cases f with
        -- a full trim that is no range trim is refused by both
        | true => exact CephFollows.of_eq rfl rfl (hg.same _)
        | false => exact cephFollows_trim_single hg ho he hp
  | maxPos oid => exact cephFollows_maxPos hg oid

/-- The answers of a whole sequence, from stores that agree. -/
theorem CephAgrees.answers_eq {h : List (Done ν)} {r : RAMBackend ν} {pool : Pool ν}
    (hg : CephAgrees h r pool) (calls : List (CephCall ν)) (hcalls : EntryDisciplined h r calls)
    (hroom : ∀ oid, bytesIn oid h + bytesOf oid (calls.map Prod.snd) < 2 ^ 32) :
    CephBackend.answers pool calls = answers r (calls.map Prod.snd) := by
  induction calls generalizing h r pool with
  | nil => rfl
  | cons call calls ih =>
    obtain ⟨be, α, c⟩ := call
    obtain ⟨-, hc, hok, hrest⟩ := hcalls
    -- the bound on the bytes of the sequence is one for this call, and one for those after it
    have hsplit : ∀ oid, bytesOf oid ((⟨α, c⟩ : AnyCall ν) :: calls.map Prod.snd) =
        c.bytes oid + bytesOf oid (calls.map Prod.snd) := fun oid => by simp [bytesOf]
    have hnow : ∀ oid, bytesIn oid h + c.bytes oid < 2 ^ 32 := by
      intro oid
      have := hroom oid
      rw [List.map_cons, hsplit] at this
      omega
    obtain ⟨hanswer, hg'⟩ := hg.exec be hc hok hnow
    have hlater : ∀ oid, bytesIn oid (h ++ [⟨c, (r.exec c).1⟩]) +
        bytesOf oid (calls.map Prod.snd) < 2 ^ 32 := by
      intro oid
      have := hroom oid
      rw [List.map_cons, hsplit] at this
      rw [bytesIn_append]
      show bytesIn oid h + c.bytes oid + _ < 2 ^ 32
      omega
    simp only [List.map_cons, CephBackend.answers, ZLog.answers, ih hg' hrest hlater, hanswer]

/-- **The Ceph and RAM backends agree** on every disciplined sequence of entry calls, call by
    call, whatever the size thresholds are. -/
theorem ceph_answers_eq_ram_answers (calls : List (CephCall ν))
    (hcalls : EntryDisciplined [] ({} : RAMBackend ν) calls)
    (hbytes : ∀ oid, bytesOf oid (calls.map Prod.snd) < 2 ^ 32) :
    CephBackend.answers (∅ : Pool ν) calls = answers ({} : RAMBackend ν) (calls.map Prod.snd) := by
  have hempty : CephAgrees [] ({} : RAMBackend ν) (∅ : Pool ν) :=
    ⟨rfl, fun _ => .absent, fun oid obj hobj => by cases hobj⟩
  exact hempty.answers_eq calls hcalls (by simpa [bytesIn] using hbytes)

/-- A backend instance with a threshold of three bytes, or with none. -/
def sampleBackend (size : Option Nat) : CephBackend := ⟨size, ⟨77, true⟩⟩

/-- Write to the byte stream and, after a seal without threshold, to the map; trim one position,
    delete everything under a limit, write past it and read back. -/
def streamCalls : List (CephCall Nat) :=
  [(sampleBackend (some 3), ⟨_, .seal "o" 1⟩), (sampleBackend (some 3), ⟨_, .write "o" "abc" 1 0⟩),
    (sampleBackend none, ⟨_, .seal "o" 2⟩), (sampleBackend none, ⟨_, .write "o" "abcd" 2 1⟩),
    (sampleBackend none, ⟨_, .read "o" 2 0⟩), (sampleBackend none, ⟨_, .trim "o" 2 1 false false⟩),
    (sampleBackend none, ⟨_, .trim "o" 2 4 true true⟩), (sampleBackend none, ⟨_, .maxPos "o"⟩),
    (sampleBackend none, ⟨_, .write "o" "e" 2 7⟩), (sampleBackend none, ⟨_, .read "o" 2 7⟩)]

/-- A payload in the stream, one in the table, and a full trim between them. -/
theorem ceph_answers_eq_ram_answers_stream :
    CephBackend.answers (∅ : Pool Nat) streamCalls =
      answers ({} : RAMBackend Nat) (streamCalls.map Prod.snd) := by
  have hthree : ∀ n, (sampleBackend (some 3)).omapMaxSize = some n → n < 2 ^ 31 := by
    intro n hn
    cases hn
    norm_num
  have hnone : ∀ n, (sampleBackend none).omapMaxSize = some n → n < 2 ^ 31 := by
    intro n hn
    cases hn
  refine ceph_answers_eq_ram_answers streamCalls ?_ ?_
  · refine ⟨hthree, .seal _ _ (by norm_num), trivial,
      hthree, .write _ _ _ _ (by norm_num) (by norm_num), trivial,
      hnone, .seal _ _ (by norm_num), trivial,
      hnone, .write _ _ _ _ (by norm_num) (by norm_num), trivial,
      hnone, .read _ _ _ (by norm_num) (by norm_num), trivial,
      hnone, .trim _ _ _ _ _ (by norm_num) (by norm_num), trivial,
      hnone, .trim _ _ _ _ _ (by norm_num) (by norm_num), ?_,
      hnone, .maxPos _, trivial,
      hnone, .write _ _ _ _ (by norm_num) (by norm_num), trivial,
      hnone, .read _ _ _ (by norm_num) (by norm_num), trivial, trivial⟩
    -- the full trim at 4 covers what was written
    show ∀ q ∈ touched _, q ≤ 4
    decide +kernel
  · intro oid
    by_cases ho : "o" = oid <;> simp [bytesOf, streamCalls, Call.bytes, ho]

end ZLog
