import ZLog.Storage.Session
import ZLog.Storage.Names
import ZLog.Storage.Lmdb

/-!
# The LMDB and RAM backends agree

Both backends, holding the same logs, are driven by the same calls with the names that
`CreateLog` and `LogBackend` produce.  `Agrees` relates the flat records of the one to the
structured objects of the other; every call keeps it and is answered alike.

The relation is stated per log and per data object, on the few records that belong to it, so a
call only has to be followed on the object it addresses.

## Main results

- `Agrees.exec`: one call is answered alike and keeps the relation.
- `lmdb_answers_eq_ram_answers`: the backends agree on every sequence of calls.
-/

namespace ZLog

variable {ν : Type}

/-! ## The calls -/

/-- The calls of the log layer, on the objects of any log. -/
inductive OnLogs : {α : Type} → Call ν α → Prop where
  | seal (a : Oid) (epoch : Nat) : OnLogs (.seal a.name epoch)
  | read (a : Oid) (epoch position : Nat) : position < 2 ^ 63 →
      OnLogs (.read a.name epoch position)
  | write (a : Oid) (data : String) (epoch position : Nat) : position < 2 ^ 63 →
      OnLogs (.write a.name data epoch position)
  | fill (a : Oid) (epoch position : Nat) : position < 2 ^ 63 →
      OnLogs (.fill a.name epoch position)
  | trim (a : Oid) (epoch position : Nat) (trimLimit trimFull : Bool) : position < 2 ^ 63 →
      OnLogs (.trim a.name epoch position trimLimit trimFull)
  | maxPos (a : Oid) : OnLogs (.maxPos a.name)
  | proposeView (u : Uuid) (epoch : Nat) (view : ν) : OnLogs (.proposeView u.hoid epoch view)
  | readViews (u : Uuid) (epoch maxViews : Nat) : OnLogs (.readViews u.hoid epoch maxViews)

/-- The data object a call addresses. -/
def Call.oid : {α : Type} → Call ν α → Option String
  | _, .read oid _ _ => some oid
  | _, .write oid _ _ _ => some oid
  | _, .fill oid _ _ => some oid
  | _, .trim oid _ _ _ _ => some oid
  | _, .seal oid _ => some oid
  | _, .maxPos oid => some oid
  | _, _ => none

/-- The calls of a history that address one object. -/
def onOid (oid : String) (h : List (Done ν)) : List (Done ν) :=
  h.filter (fun d => d.call.oid = some oid)

/-- A full trim covers every position touched so far on its object. -/
def FullTrimOk (h : List (Done ν)) : {α : Type} → Call ν α → Prop
  | _, .trim oid epoch position trimLimit trimFull =>
    TrimFullOk (onOid oid h) (.trim oid epoch position trimLimit trimFull : Call ν _)
  | _, _ => True

/-- The calls have the right names and keep the discipline on full trims. -/
def Disciplined (h : List (Done ν)) (b : RAMBackend ν) : List (AnyCall ν) → Prop
  | [] => True
  | ⟨_, c⟩ :: cs =>
    OnLogs c ∧ FullTrimOk h c ∧ Disciplined (h ++ [⟨c, (b.exec c).1⟩]) (b.exec c).2 cs

/-- The answers of the LMDB backend to a list of calls. -/
def LMDBBackend.answers (b : LMDBBackend ν) : List (AnyCall ν) → List (Done ν)
  | [] => []
  | ⟨_, c⟩ :: cs => ⟨c, (b.exec c).1⟩ :: answers (b.exec c).2 cs

/-- A log to create: its name, its first view and the uuid drawn for it. -/
structure NewLog (ν : Type) where
  name : String
  view : ν
  uuid : Uuid

/-- Creates the logs one after the other; `none` when a creation fails. -/
def RAMBackend.createLogs (b : RAMBackend ν) : List (NewLog ν) → Option (RAMBackend ν)
  | [] => some b
  | log :: logs =>
    match b.createLog log.name log.view log.uuid.text with
    | (.ok _, b') => createLogs b' logs
    | (.error _, _) => none

/-- Creates the logs one after the other; `none` when a creation fails. -/
def LMDBBackend.createLogs (b : LMDBBackend ν) : List (NewLog ν) → Option (LMDBBackend ν)
  | [] => some b
  | log :: logs =>
    match b.createLog log.name log.view log.uuid.text with
    | (.ok _, b') => createLogs b' logs
    | (.error _, _) => none

/-! ## The relation -/

/-- The signed trim limit. -/
inductive LimitAgrees : Option Nat → Int → Prop where
  | none : LimitAgrees none (-1)
  | some (n : Nat) : n < 2 ^ 63 → LimitAgrees (some n) n

/-- The entry of a position.  Entries that were filled and entries that were trimmed differ in
    their flags between the backends, which no call can observe. -/
inductive EntryAgrees (p : Nat) : Option LogEntry → Option (Record ν) → Prop where
  | absent : EntryAgrees p none none
  | live (d : String) : EntryAgrees p (some { data := d }) (some (.entry false false p d))
  | dead (e : LogEntry) (t i : Bool) (d : String) : (e.trimmed || e.invalidated) = true →
      (t || i) = true → EntryAgrees p (some e) (some (.entry t i p d))

/-- The maximum position.  LMDB keeps its record after a full trim, where RAM reports the trim
    limit; the limit then covers the recorded position. -/
inductive MaxPosAgrees (touchedHere : List Nat) (o : LogObject) : Option (Record ν) → Prop where
  | absent : (∀ k, k ∉ o.entries) → o.maxpos = 0 → MaxPosAgrees touchedHere o none
  | entries (k : Nat) : k ∈ o.entries → o.maxpos ∈ touchedHere →
      MaxPosAgrees touchedHere o (some (.maxPos o.maxpos))
  | covered (limit : Nat) : o.trimLimit = some limit → o.maxpos ≤ limit →
      o.maxpos ∈ touchedHere → MaxPosAgrees touchedHere o (some (.maxPos o.maxpos))

/-- A data object: the RAM object, and the object, max-position and entry records. -/
inductive ObjectAgrees (touchedHere : List Nat) : Option (Object ν) → Option (Record ν) →
    Option (Record ν) → (Nat → Option (Record ν)) → Prop where
  | absent : ObjectAgrees touchedHere none none none (fun _ => none)
  | present (o : LogObject) (t : Int) (m : Option (Record ν)) (es : Nat → Option (Record ν)) :
      LimitAgrees o.trimLimit t → MaxPosAgrees touchedHere o m →
      (∀ p, EntryAgrees p (o.entries.lookup p) (es p)) →
      ObjectAgrees touchedHere (some (.log o)) (some (.log o.epoch t)) m es

/-- A head object: the RAM object, and the head and view records.  The epochs are 1 to the
    current one, without gaps. -/
inductive HeadAgrees : Option (Object ν) → Option (Record ν) → (Nat → Option (Record ν)) →
    Prop where
  | absent : HeadAgrees none none (fun _ => none)
  | present (proj : ProjectionObject ν) (id : Nat) (vs : List ν)
      (views : Nat → Option (Record ν)) : vs ≠ [] → proj.epoch = vs.length →
      proj.projections.toList = Lib.OrderedMap.numbered 1 vs →
      (∀ e, views e = if 1 ≤ e then vs[e - 1]?.map .view else none) →
      HeadAgrees (some (.projection proj)) (some (.projection proj.epoch id proj.pfx)) views

/-- The RAM backend and the LMDB backend after the calls of `h`. -/
structure Agrees (h : List (Done ν)) (r : RAMBackend ν) (l : LMDBBackend ν) : Prop where
  stores : r.blackhole = false
  object : ∀ a : Oid, ObjectAgrees (touched (onOid a.name h)) (r.objects.lookup a.name)
    (l.get (Key.object a).name) (l.get (Key.maxPos a).name)
    (fun p => l.get (Key.entry a p).name)
  head : ∀ u : Uuid, HeadAgrees (r.objects.lookup u.hoid) (l.get (Key.head u).name)
    (fun e => l.get (Key.view u e).name)

/-! ## Records under keys -/

namespace LMDBBackend

/-- The key of an entry in the database. -/
theorem logEntryKey_eq (a : Oid) (p : Nat) : logEntryKey a.name p = (Key.entry a p).name :=
  (Key.entry_name a p).symm

/-- The key of the maximum position in the database. -/
theorem maxPosKey_eq (a : Oid) : maxPosKey a.name = (Key.maxPos a).name :=
  (Key.maxPos_name a).symm

/-- The key of a view in the database. -/
theorem projectionKey_eq (u : Uuid) (e : Nat) : projectionKey u.hoid e = (Key.view u e).name :=
  (Key.view_name u e).symm

/-- One record is put, all others stay. -/
theorem get_put (b : LMDBBackend ν) (k k' : Key) (x : Record ν) :
    (b.put k.name x).get k'.name = if k' = k then some x else b.get k'.name := by
  rw [get_put_eq]
  by_cases h : k' = k
  · rw [h, if_pos rfl, if_pos rfl]
  · rw [if_neg h, if_neg fun hn => h (Key.name_injective hn)]

/-- `Put` with `MDB_NOOVERWRITE` stores only what is missing. -/
theorem putNew_eq_some {b b' : LMDBBackend ν} {key : String} {x : Record ν} :
    b.putNew key x = some b' ↔ b.get key = none ∧ b' = b.put key x := by
  unfold putNew
  cases b.get key with
  | none => simp [eq_comm]
  | some y => simp

/-- Without a NUL in the prefix, `strncmp` over its length compares it as a whole. -/
theorem strncmpEq_iff {s t : List Char} (ht : '\x00' ∉ t) (hlen : t.length ≤ s.length) :
    strncmpEq t.length s t = true ↔ t <+: s := by
  induction t generalizing s with
  | nil => simp [strncmpEq]
  | cons d ds ih =>
    cases s with
    | nil => simp at hlen
    | cons c cs =>
      have hd : d ≠ '\x00' := fun h => ht (by simp [h])
      have hds : '\x00' ∉ ds := fun h => ht (List.mem_cons_of_mem _ h)
      have htail := ih hds (by simpa using hlen)
      simp only [List.length_cons, strncmpEq, Bool.and_eq_true, beq_iff_eq, Bool.or_eq_true,
        -- the comparison ends early at a NUL, which the prefix does not have
        htail, List.cons_prefix_cons]
      constructor
      · rintro ⟨rfl, h | h⟩
        · exact absurd h hd
        · exact ⟨rfl, h⟩
      · rintro ⟨rfl, h⟩
        exact ⟨rfl, Or.inr h⟩

/-- `StartsWith` compares whole prefixes when there is no NUL in them. -/
theorem startsWith_iff {s pfx : String} (hnul : '\x00' ∉ pfx.toList) :
    startsWith s pfx = true ↔ pfx.toList <+: s.toList := by
  unfold startsWith
  simp only [Bool.and_eq_true, decide_eq_true_eq]
  constructor
  · rintro ⟨hlen, hcmp⟩
    exact (strncmpEq_iff hnul hlen).mp hcmp
  · intro hp
    exact ⟨hp.length_le, (strncmpEq_iff hnul hp.length_le).mpr hp⟩

/-- The scan for the entries of an object finds these and no other record. -/
theorem startsWith_entry_iff (a : Oid) (k : Key) :
    startsWith k.name (a.name ++ ".entry.") = true ↔ ∃ p, k = .entry a p := by
  have hnul : '\x00' ∉ (a.name ++ ".entry.").toList := by
    have huuid : '\x00' ∉ a.uuid.text.toList := by
      intro h
      rcases a.uuid.chars _ h with hc | hc | hc <;> exact absurd hc (by decide)
    have hs := nulFree_toString a.stripe
    have hi := nulFree_toString a.index
    simp only [Nat.toString_eq_repr, Nat.toList_repr] at hs hi
    simp [Oid.name, Uuid.pfx, String.toList_append, huuid, hs, hi]
  rw [← Key.prefix_entry_iff]
  exact startsWith_iff hnul

/-- The scan deletes the keys that it collected. -/
theorem get_foldl_delete (keys : List String) (b : LMDBBackend ν) (key : String) :
    (keys.foldl delete b).get key = if key ∈ keys then none else b.get key := by
  induction keys generalizing b with
  | nil => simp
  | cons k ks ih =>
    rw [List.foldl_cons, ih]
    by_cases hk : key = k
    · subst hk
      by_cases hm : key ∈ ks <;> simp [hm, delete, get]
    · by_cases hm : key ∈ ks
      · simp [hm]
      · simp [hm, hk, delete, get, AList.lookup_erase_ne hk]

/-- Deleting what a cursor found below the entry directory of `a` removes its entries. -/
theorem get_deleteEntries_entry (b : LMDBBackend ν) (a : Oid) (p : Nat) :
    ((b.getAll (a.name ++ ".entry.")).foldl delete b).get (Key.entry a p).name = none := by
  rw [get_foldl_delete]
  by_cases hm : (Key.entry a p).name ∈ b.getAll (a.name ++ ".entry.")
  · simp [hm]
  · rw [if_neg hm]
    refine AList.lookup_eq_none.mpr fun hmem => hm ?_
    refine List.mem_filter.mpr ⟨AList.mem_keys.mp hmem, ?_⟩
    exact (startsWith_entry_iff a _).mpr ⟨p, rfl⟩

/-- Deleting the entries of an object leaves all other records. -/
theorem get_deleteEntries_of_ne (b : LMDBBackend ν) (a : Oid) {k : Key}
    (hk : ∀ p, k ≠ .entry a p) :
    ((b.getAll (a.name ++ ".entry.")).foldl delete b).get k.name = b.get k.name := by
  have hm : k.name ∉ b.getAll (a.name ++ ".entry.") := by
    intro hm
    obtain ⟨p, hp⟩ := (startsWith_entry_iff a k).mp (List.mem_filter.mp hm).2
    exact hk p hp
  rw [get_foldl_delete, if_neg hm]

end LMDBBackend

/-! ## Signed limits -/

/-- Both sides agree on which positions are trimmed. -/
theorem LimitAgrees.below {o : LogObject} {t : Int} (h : LimitAgrees o.trimLimit t) (p : Nat) :
    LMDBBackend.belowTrimLimit t p = o.belowTrimLimit p := by
  unfold LogObject.belowTrimLimit LMDBBackend.belowTrimLimit
  cases hl : o.trimLimit with
  | none =>
    rw [hl] at h
    cases h
    rfl
  | some n =>
    rw [hl] at h
    cases h with
    | some _ hn => simp [toUInt64_of_lt hn]

/-- Raising the limit on both sides. -/
theorem LimitAgrees.raise {o : LogObject} {t : Int} (h : LimitAgrees o.trimLimit t) {p : Nat}
    (hp : p < 2 ^ 63) :
    LimitAgrees (o.raiseTrimLimit p).trimLimit
      (if 0 ≤ t then toInt64 (max p (toUInt64 t)) else toInt64 p) := by
  unfold LogObject.raiseTrimLimit
  cases hl : o.trimLimit with
  | none =>
    rw [hl] at h
    cases h
    rw [if_neg (by omega), toInt64_of_lt hp]
    exact .some p hp
  | some n =>
    rw [hl] at h
    cases h with
    | some _ hn =>
      rw [if_pos (by omega), toUInt64_of_lt hn, toInt64_of_lt (by omega)]
      exact .some _ (by omega)

/-! ## Following one object -/

/-- The record belongs to the data object `a`. -/
def Key.belongsTo (a : Oid) : Key → Prop
  | .object b => b = a
  | .maxPos b => b = a
  | .entry b _ => b = a
  | _ => False

/-- A call adds what it touches to its own object only. -/
theorem touched_onOid_append (oid : String) (h : List (Done ν)) (d : Done ν) :
    touched (onOid oid (h ++ [d])) =
      touched (onOid oid h) ++ (if d.call.oid = some oid then d.touches.toList else []) := by
  by_cases hd : d.call.oid = some oid
  · have happ : onOid oid (h ++ [d]) = onOid oid h ++ [d] := by simp [onOid, hd]
    rw [happ, touched_append, if_pos hd]
  · simp [onOid, hd]

/-- More positions may count as touched. -/
theorem MaxPosAgrees.mono {T T' : List Nat} (hT : ∀ q ∈ T, q ∈ T') {o : LogObject}
    {m : Option (Record ν)} (h : MaxPosAgrees T o m) : MaxPosAgrees T' o m := by
  cases h with
  | absent hk hm => exact .absent hk hm
  | entries k hk hm => exact .entries k hk (hT _ hm)
  | covered limit hl hle hm => exact .covered limit hl hle (hT _ hm)

/-- The record only depends on the maximum position, on which entries there are, and on a limit
    that may grow. -/
theorem MaxPosAgrees.congr {T : List Nat} {o o' : LogObject} {m : Option (Record ν)}
    (h : MaxPosAgrees T o m) (hmax : o'.maxpos = o.maxpos)
    (hkeys : ∀ k, k ∈ o'.entries ↔ k ∈ o.entries)
    (hlim : ∀ n, o.trimLimit = some n → ∃ n', o'.trimLimit = some n' ∧ n ≤ n') :
    MaxPosAgrees T o' m := by
  cases h with
  | absent hk h0 => exact .absent (fun k hm => hk k ((hkeys k).mp hm)) (hmax.trans h0)
  | entries k hk hm =>
    rw [← hmax] at hm ⊢
    exact .entries k ((hkeys k).mpr hk) hm
  | covered limit hl hle hm =>
    obtain ⟨limit', hl', hle'⟩ := hlim limit hl
    rw [← hmax] at hm ⊢
    exact .covered limit' hl' (by omega) hm

/-- More positions may count as touched. -/
theorem ObjectAgrees.mono {T T' : List Nat} (hT : ∀ q ∈ T, q ∈ T') {x : Option (Object ν)}
    {y m : Option (Record ν)} {es : Nat → Option (Record ν)} (h : ObjectAgrees T x y m es) :
    ObjectAgrees T' x y m es := by
  cases h with
  | absent => exact .absent
  | present o t _ _ hl hm he => exact .present o t _ _ hl (hm.mono hT) he

/-- A history that goes on touches no less. -/
theorem touched_onOid_subset (oid : String) (h : List (Done ν)) (d : Done ν) :
    ∀ q ∈ touched (onOid oid h), q ∈ touched (onOid oid (h ++ [d])) := by
  intro q hq
  rw [touched_onOid_append]
  exact List.mem_append_left _ hq

/-- A call that changes neither backend. -/
theorem Agrees.same {h : List (Done ν)} {r : RAMBackend ν} {l : LMDBBackend ν}
    (hg : Agrees h r l) (d : Done ν) : Agrees (h ++ [d]) r l :=
  ⟨hg.stores, fun a => (hg.object a).mono (touched_onOid_subset a.name h d), hg.head⟩

/-- A call that changes one data object only. -/
theorem Agrees.set_object {h : List (Done ν)} {r r' : RAMBackend ν} {l l' : LMDBBackend ν}
    (hg : Agrees h r l) (a : Oid) (d : Done ν) (hstores : r'.blackhole = r.blackhole)
    (hr : ∀ key, key ≠ a.name → r'.objects.lookup key = r.objects.lookup key)
    (hl : ∀ k : Key, ¬ k.belongsTo a → l'.get k.name = l.get k.name)
    (ho : ObjectAgrees (touched (onOid a.name (h ++ [d]))) (r'.objects.lookup a.name)
      (l'.get (Key.object a).name) (l'.get (Key.maxPos a).name)
      (fun p => l'.get (Key.entry a p).name)) : Agrees (h ++ [d]) r' l' := by
  refine ⟨hstores.trans hg.stores, ?_, ?_⟩
  · -- the object of the call, and every other one
    intro b
    by_cases hb : b = a
    · rw [hb]
      exact ho
    · rw [hr _ (fun hn => hb (Oid.name_injective hn)), hl (.object b) hb, hl (.maxPos b) hb]
      simp only [fun p => hl (.entry b p) hb]
      exact (hg.object b).mono (touched_onOid_subset b.name h d)
  · -- the head objects are no log objects
    intro u
    rw [hr _ (u.hoid_ne_oid a), hl (.head u) (fun hf => hf)]
    simp only [fun e => hl (.view u e) (fun hf => hf)]
    exact hg.head u

/-- A call that stores a log object on the one side and its records on the other. -/
theorem Agrees.set_log {h : List (Done ν)} {r : RAMBackend ν} {l l' : LMDBBackend ν}
    (hg : Agrees h r l) (a : Oid) (d : Done ν) {o : LogObject} {t : Int}
    (hl : ∀ k : Key, ¬ k.belongsTo a → l'.get k.name = l.get k.name)
    (hobj : l'.get (Key.object a).name = some (.log o.epoch t))
    (hlim : LimitAgrees o.trimLimit t)
    (hmax : MaxPosAgrees (touched (onOid a.name (h ++ [d]))) o (l'.get (Key.maxPos a).name))
    (hent : ∀ p, EntryAgrees p (o.entries.lookup p) (l'.get (Key.entry a p).name)) :
    Agrees (h ++ [d]) (r.setLog a.name o) l' := by
  refine hg.set_object a d rfl ?_ hl ?_
  · intro key hkey
    rw [RAMBackend.lookup_setLog, if_neg hkey]
  · rw [RAMBackend.lookup_setLog, if_pos rfl, hobj]
    exact .present o t _ _ hlim hmax hent

/-- What the two backends hold for an object that exists. -/
structure Present (T : List Nat) (r : RAMBackend ν) (l : LMDBBackend ν) (a : Oid)
    (o : LogObject) (t : Int) : Prop where
  ram : r.objects.lookup a.name = some (.log o)
  object : l.get (Key.object a).name = some (.log o.epoch t)
  limit : LimitAgrees o.trimLimit t
  maxPos : MaxPosAgrees T o (l.get (Key.maxPos a).name)
  entry : ∀ p, EntryAgrees p (o.entries.lookup p) (l.get (Key.entry a p).name)

/-- The object is missing on both sides, or present on both. -/
theorem Agrees.cases {h : List (Done ν)} {r : RAMBackend ν} {l : LMDBBackend ν}
    (hg : Agrees h r l) (a : Oid) :
    (r.objects.lookup a.name = none ∧ l.get (Key.object a).name = none ∧
      l.get (Key.maxPos a).name = none ∧ ∀ p, l.get (Key.entry a p).name = none) ∨
    ∃ o t, Present (touched (onOid a.name h)) r l a o t := by
  have ho := hg.object a
  generalize hx : r.objects.lookup a.name = x at ho
  generalize hy : l.get (Key.object a).name = y at ho
  generalize hm : l.get (Key.maxPos a).name = m at ho
  generalize hes : (fun p => l.get (Key.entry a p).name) = es at ho
  cases ho with
  | absent => exact Or.inl ⟨rfl, rfl, rfl, fun p => congrFun hes p⟩
  | present o t _ _ hlim hmax hent =>
    refine Or.inr ⟨o, t, ⟨hx, hy, hlim, hm ▸ hmax, fun p => ?_⟩⟩
    rw [show l.get (Key.entry a p).name = es p from congrFun hes p]
    exact hent p

/-! ## One call -/

/-- The epoch checks give the same error, or find the same object. -/
theorem Agrees.checkIo {h : List (Done ν)} {r : RAMBackend ν} {l : LMDBBackend ν}
    (hg : Agrees h r l) (a : Oid) (epoch : Nat) :
    (∃ e, r.checkIo a.name epoch = .error e ∧ l.checkIo a.name epoch = .error e) ∨
    ∃ o t, Present (touched (onOid a.name h)) r l a o t ∧ r.checkIo a.name epoch = .ok o ∧
      l.checkIo a.name epoch = .ok (o.epoch, t) := by
  unfold RAMBackend.checkIo LMDBBackend.checkIo RAMBackend.checkEpoch LMDBBackend.checkEpoch
  simp only [a.name_ne_empty, if_false]
  -- the checks in the order of the source: the epoch, the object, its epoch
  by_cases he : epoch = 0
  · exact Or.inl ⟨.einval, by simp [he], by simp [he]⟩
  · simp only [he, if_false]
    rcases hg.cases a with ⟨hr, hl, -, -⟩ | ⟨o, t, hp⟩
    · rw [Key.object_name] at hl
      exact Or.inl ⟨.enoent, by rw [hr], by rw [hl]⟩
    · have hl := hp.object
      rw [Key.object_name] at hl
      rw [hp.ram, hl]
      by_cases hlt : epoch < o.epoch
      · exact Or.inl ⟨.espipe, by simp [hlt], by simp [hlt]⟩
      · exact Or.inr ⟨o, t, hp, by simp [hlt], by simp [hlt]⟩

/-- A call on both backends that is answered alike and keeps the relation. -/
def Follows (h : List (Done ν)) (r : RAMBackend ν) (l : LMDBBackend ν) {α : Type}
    (c : Call ν α) : Prop :=
  (r.exec c).1 = (l.exec c).1 ∧ Agrees (h ++ [⟨c, (r.exec c).1⟩]) (r.exec c).2 (l.exec c).2

/-- Equal answers and stores that agree afterwards. -/
theorem Follows.of_eq {h : List (Done ν)} {r s : RAMBackend ν} {l m : LMDBBackend ν} {α : Type}
    {c : Call ν α} {x : α} (hr : r.exec c = (x, s)) (hl : l.exec c = (x, m))
    (hg : Agrees (h ++ [⟨c, x⟩]) s m) : Follows h r l c := by
  unfold Follows
  rw [hr, hl]
  exact ⟨rfl, hg⟩

/-- `Read` on both sides. -/
theorem follows_read {h : List (Done ν)} {r : RAMBackend ν} {l : LMDBBackend ν}
    (hg : Agrees h r l) (a : Oid) (epoch p : Nat) :
    Follows h r l (.read a.name epoch p) := by
  refine ⟨?_, hg.same _⟩
  show r.read a.name epoch p = l.read a.name epoch p
  unfold RAMBackend.read LMDBBackend.read
  rcases hg.checkIo a epoch with ⟨e, hr, hl⟩ | ⟨o, t, hp, hr, hl⟩
  · rw [hr, hl]
  · -- the limit decides first, then the entry
    rw [hr, hl]
    have he := hp.entry p
    simp only [LogObject.read, hp.limit.below p, LMDBBackend.logEntryKey_eq]
    by_cases hb : o.belowTrimLimit p = true
    · simp [hb]
    · simp only [hb, Bool.false_eq_true, if_false]
      generalize o.entries.lookup p = x at he
      generalize l.get (Key.entry a p).name = y at he
      cases he with
      | absent => rfl
      | live d => simp
      | dead e t i d h₁ h₂ => simp [h₁, h₂]

/-- `MaxPos` on both sides. -/
theorem follows_maxPos {h : List (Done ν)} {r : RAMBackend ν} {l : LMDBBackend ν}
    (hg : Agrees h r l) (a : Oid) : Follows h r l (.maxPos a.name) := by
  refine ⟨?_, hg.same _⟩
  show r.maxPos a.name = l.maxPos a.name
  unfold RAMBackend.maxPos LMDBBackend.maxPos
  simp only [a.name_ne_empty, if_false, LMDBBackend.maxPosKey_eq]
  rcases hg.cases a with ⟨hr, hl, -, -⟩ | ⟨o, t, hp⟩
  · rw [Key.object_name] at hl
    rw [hr, hl]
  · have hl := hp.object
    rw [Key.object_name] at hl
    rw [hp.ram, hl]
    have hm := hp.maxPos
    have hlim := hp.limit
    unfold LogObject.maxPos
    have hkeys : o.entries.keys.isEmpty = true ↔ ∀ k, k ∉ o.entries := by
      rw [List.isEmpty_iff, List.eq_nil_iff_forall_not_mem]
      rfl
    generalize l.get (Key.maxPos a).name = m at hm
    -- the LMDB record outlives the entries, so the two emptiness tests differ
    cases hm with
    | absent hk h0 =>
      simp only [hkeys.mpr hk, if_true]
      generalize o.trimLimit = lim at hlim
      cases hlim with
      | none => simp
      | some n hn => simp [toUInt64_of_lt hn]
    | entries k hk hT =>
      have hne : o.entries.keys.isEmpty = false := by
        by_contra hc
        exact (hkeys.mp (by simpa using hc)) k hk
      simp only [hne, Bool.false_eq_true, if_false]
      generalize o.trimLimit = lim at hlim
      cases hlim with
      | none => simp
      | some n hn => simp [toUInt64_of_lt hn]
    | covered limit hlimit hle hT =>
      rw [hlimit] at hlim
      dsimp only
      rw [hlimit]
      cases hlim with
      | some n hn =>
        have hmax : max o.maxpos limit = limit := by omega
        cases o.entries.keys.isEmpty <;> simp [toUInt64_of_lt hn, hmax]

/-- `Seal` on both sides. -/
theorem follows_seal {h : List (Done ν)} {r : RAMBackend ν} {l : LMDBBackend ν}
    (hg : Agrees h r l) (a : Oid) (epoch : Nat) : Follows h r l (.seal a.name epoch) := by
  by_cases he : epoch = 0
  · refine Follows.of_eq (x := .error .einval) (s := r) (m := l) ?_ ?_ (hg.same _)
    · simp [RAMBackend.exec, RAMBackend.seal, a.name_ne_empty, he]
    · simp [LMDBBackend.exec, LMDBBackend.seal, a.name_ne_empty, he]
  · -- the first seal creates the object, without entries and without a limit
    rcases hg.cases a with ⟨hr, hl, hm, hes⟩ | ⟨o, t, hp⟩
    · refine Follows.of_eq (x := .ok ()) (s := r.setLog a.name { epoch := epoch })
        (m := l.put (Key.object a).name (.log epoch (-1))) ?_ ?_ ?_
      · simp [RAMBackend.exec, RAMBackend.seal, a.name_ne_empty, he, hr]
      · rw [Key.object_name] at hl
        simp [LMDBBackend.exec, LMDBBackend.seal, a.name_ne_empty, he, hl, Key.object_name]
      · refine hg.set_log a _ (t := -1) ?_ ?_ .none ?_ ?_
        · intro k hk
          rw [LMDBBackend.get_put, if_neg]
          rintro rfl
          exact hk rfl
        · simp [LMDBBackend.get_put]
        · simp only [LMDBBackend.get_put, reduceCtorEq, if_false, hm]
          exact .absent (fun k => AList.notMem_empty k) rfl
        · intro p
          simp only [LMDBBackend.get_put, reduceCtorEq, if_false, hes]
          exact .absent
    · -- an old epoch is refused, a newer one is stored
      by_cases hle : epoch ≤ o.epoch
      · refine Follows.of_eq (x := .error .espipe) (s := r) (m := l) ?_ ?_ (hg.same _)
        · simp [RAMBackend.exec, RAMBackend.seal, a.name_ne_empty, he, hp.ram, hle]
        · have hl := hp.object
          rw [Key.object_name] at hl
          simp [LMDBBackend.exec, LMDBBackend.seal, a.name_ne_empty, he, hl, hle]
      · refine Follows.of_eq (x := .ok ()) (s := r.setLog a.name { o with epoch := epoch })
          (m := l.put (Key.object a).name (.log epoch t)) ?_ ?_ ?_
        · -- a seal changes the epoch only
          simp [RAMBackend.exec, RAMBackend.seal, a.name_ne_empty, he, hp.ram, hle]
        · have hl := hp.object
          rw [Key.object_name] at hl
          simp [LMDBBackend.exec, LMDBBackend.seal, a.name_ne_empty, he, hl, hle, Key.object_name]
        · refine hg.set_log a _ (t := t) ?_ ?_ hp.limit ?_ ?_
          · intro k hk
            rw [LMDBBackend.get_put, if_neg]
            rintro rfl
            exact hk rfl
          · simp [LMDBBackend.get_put]
          · have hm := hp.maxPos.mono (touched_onOid_subset a.name h ⟨.seal a.name epoch, .ok ()⟩)
            simp only [LMDBBackend.get_put, reduceCtorEq, if_false]
            exact hm.congr rfl (fun _ => Iff.rfl) (fun _ hlim => ⟨_, hlim, le_refl _⟩)
          · intro p
            simpa [LMDBBackend.get_put] using hp.entry p

/-- The stored maximum position is the one RAM keeps. -/
theorem Present.readMaxPos {T : List Nat} {r : RAMBackend ν} {l : LMDBBackend ν} {a : Oid}
    {o : LogObject} {t : Int} (hp : Present T r l a o t) :
    l.readMaxPos a.name = .ok o.maxpos := by
  unfold LMDBBackend.readMaxPos
  rw [LMDBBackend.maxPosKey_eq]
  have hm := hp.maxPos
  generalize l.get (Key.maxPos a).name = m at hm
  cases hm with
  | absent _ h0 => rw [h0]
  | entries => rfl
  | covered => rfl

/-- A call that stores an entry at a position it touches. -/
theorem Agrees.add_entry {h : List (Done ν)} {r : RAMBackend ν} {l l' : LMDBBackend ν}
    (hg : Agrees h r l) {a : Oid} {o : LogObject} {t : Int}
    (hp : Present (touched (onOid a.name h)) r l a o t) {p : Nat} {e : LogEntry} {x : Record ν}
    (hx : EntryAgrees p (some e) (some x)) {d : Done ν} (hoid : d.call.oid = some a.name)
    (htouch : d.touches = some p)
    (hobj : l'.get (Key.object a).name = l.get (Key.object a).name)
    (hmax : l'.get (Key.maxPos a).name = some (.maxPos (max o.maxpos p)))
    (hent : ∀ q, l'.get (Key.entry a q).name =
      if q = p then some x else l.get (Key.entry a q).name)
    (hl : ∀ k : Key, ¬ k.belongsTo a → l'.get k.name = l.get k.name) :
    Agrees (h ++ [d])
      (r.setLog a.name { o with entries := o.entries.insert p e, maxpos := max o.maxpos p }) l' := by
  have hT : touched (onOid a.name (h ++ [d])) = touched (onOid a.name h) ++ [p] := by
    rw [touched_onOid_append, if_pos hoid, htouch]
    rfl
  refine hg.set_log a d hl (hobj.trans hp.object) hp.limit ?_ ?_
  · -- the record of the maximum: the new entry is the greatest, or an older position is
    rw [hmax, hT]
    refine .entries (o := { o with entries := o.entries.insert p e, maxpos := max o.maxpos p }) p
      ((AList.mem_insert _).mpr (Or.inl rfl)) ?_
    show max o.maxpos p ∈ _
    rcases le_total o.maxpos p with hle | hle
    · rw [max_eq_right hle]
      simp
    · rw [max_eq_left hle]
      have hm := hp.maxPos
      generalize l.get (Key.maxPos a).name = m at hm
      cases hm with
      | absent _ h0 =>
        have hp0 : o.maxpos = p := by omega
        simp [hp0]
      | entries _ _ hmem => exact List.mem_append_left _ hmem
      | covered _ _ _ hmem => exact List.mem_append_left _ hmem
  · -- the entries: the new one, and those before
    intro q
    rw [hent]
    by_cases hq : q = p
    · subst hq
      rw [if_pos rfl, AList.lookup_insert]
      exact hx
    · rw [if_neg hq, AList.lookup_insert_ne hq]
      exact hp.entry q

/-- RAM has an entry exactly where LMDB has a record. -/
theorem EntryAgrees.none_iff {p : Nat} {x : Option LogEntry} {y : Option (Record ν)}
    (h : EntryAgrees p x y) : x = none ↔ y = none := by
  cases h <;> simp

/-- `Write` on both sides. -/
theorem follows_write {h : List (Done ν)} {r : RAMBackend ν} {l : LMDBBackend ν}
    (hg : Agrees h r l) (a : Oid) (data : String) (epoch p : Nat) :
    Follows h r l (.write a.name data epoch p) := by
  rcases hg.checkIo a epoch with ⟨e, hr, hl⟩ | ⟨o, t, hp, hr, hl⟩
  · refine Follows.of_eq (x := .error e) (s := r) (m := l) ?_ ?_ (hg.same _)
    · simp [RAMBackend.exec, RAMBackend.write, hr]
    · simp [LMDBBackend.exec, LMDBBackend.write, hl]
  · have hbelow := hp.limit.below p
    by_cases hb : o.belowTrimLimit p = true
    · -- trimmed by the limit
      refine Follows.of_eq (x := .error .erofs) (s := r) (m := l) ?_ ?_ (hg.same _)
      · simp [RAMBackend.exec, RAMBackend.write, hr, LogObject.write, hb]
      · simp [LMDBBackend.exec, LMDBBackend.write, hl, hbelow, hb]
    · rw [Bool.not_eq_true] at hb
      have hiff := (hp.entry p).none_iff
      cases he : o.entries.lookup p with
      -- written, filled or trimmed before: `MDB_NOOVERWRITE` refuses the record
      | some entry =>
        have hne : l.get (Key.entry a p).name ≠ none := fun hn => by simp [hiff.mpr hn] at he
        obtain ⟨y, hy⟩ := Option.ne_none_iff_exists'.mp hne
        refine Follows.of_eq (x := .error .erofs) (s := r) (m := l) ?_ ?_ (hg.same _)
        · simp [RAMBackend.exec, RAMBackend.write, hr, LogObject.write, hb, he]
        · simp [LMDBBackend.exec, LMDBBackend.write, hl, hbelow, hb, hp.readMaxPos,
            LMDBBackend.putNew, LMDBBackend.logEntryKey_eq, hy]
      -- the position is free: the entry and the maximum are put in one transaction
      | none =>
        have hy := hiff.mp he
        refine Follows.of_eq (x := .ok ())
          (s := r.setLog a.name { o with entries := o.entries.insert p { data := data },
                                          maxpos := max o.maxpos p })
          (m := (l.put (Key.entry a p).name (.entry false false p data)).put (Key.maxPos a).name
            (.maxPos (max o.maxpos p))) ?_ ?_ ?_
        · simp [RAMBackend.exec, RAMBackend.write, hr, LogObject.write, hb, he, hg.stores]
        · simp [LMDBBackend.exec, LMDBBackend.write, hl, hbelow, hb, hp.readMaxPos,
            LMDBBackend.putNew, LMDBBackend.logEntryKey_eq, LMDBBackend.maxPosKey_eq, hy]
        · refine hg.add_entry hp (.live data) rfl rfl ?_ ?_ ?_ ?_
          · simp [LMDBBackend.get_put]
          · simp [LMDBBackend.get_put]
          · intro q
            simp [LMDBBackend.get_put]
          · intro k hk
            cases k <;> simp_all [LMDBBackend.get_put, Key.belongsTo]

/-- `Fill` on both sides. -/
theorem follows_fill {h : List (Done ν)} {r : RAMBackend ν} {l : LMDBBackend ν}
    (hg : Agrees h r l) (a : Oid) (epoch p : Nat) : Follows h r l (.fill a.name epoch p) := by
  rcases hg.checkIo a epoch with ⟨e, hr, hl⟩ | ⟨o, t, hp, hr, hl⟩
  · refine Follows.of_eq (x := .error e) (s := r) (m := l) ?_ ?_ (hg.same _)
    · simp [RAMBackend.exec, RAMBackend.fill, hr]
    · simp [LMDBBackend.exec, LMDBBackend.fill, hl]
  · have hbelow := hp.limit.below p
    -- a fill that returns 0 without storing anything leaves the object as it is
    have hkeep : Agrees (h ++ [⟨.fill a.name epoch p, .ok ()⟩]) (r.setLog a.name o) l := by
      refine hg.set_log a _ (fun _ _ => rfl) hp.object hp.limit ?_ hp.entry
      exact hp.maxPos.mono (touched_onOid_subset a.name h _)
    by_cases hb : o.belowTrimLimit p = true
    · refine Follows.of_eq (x := .ok ()) (s := r.setLog a.name o) (m := l) ?_ ?_ hkeep
      · simp [RAMBackend.exec, RAMBackend.fill, hr, LogObject.fill, hb]
      · simp [LMDBBackend.exec, LMDBBackend.fill, hl, hbelow, hb]
    · rw [Bool.not_eq_true] at hb
      have hent := hp.entry p
      generalize he : o.entries.lookup p = x at hent
      generalize hy : l.get (Key.entry a p).name = y at hent
      cases hent with
      | absent =>
        refine Follows.of_eq (x := .ok ())
          (s := r.setLog a.name { o with entries := o.entries.insert p LogObject.junkEntry,
                                          maxpos := max o.maxpos p })
          (m := l.putEntry a.name p (.entry true true p "") o.maxpos) ?_ ?_ ?_
        · simp [RAMBackend.exec, RAMBackend.fill, hr, LogObject.fill, hb, he]
        · simp [LMDBBackend.exec, LMDBBackend.fill, hl, hbelow, hb, hp.readMaxPos,
            LMDBBackend.logEntryKey_eq, hy]
        · unfold LMDBBackend.putEntry
          rw [LMDBBackend.maxPosKey_eq, LMDBBackend.logEntryKey_eq]
          refine hg.add_entry hp (.dead _ true true "" rfl rfl) rfl rfl ?_ ?_ ?_ ?_
          · simp [LMDBBackend.get_put]
          · simp [LMDBBackend.get_put]
          · intro q
            simp [LMDBBackend.get_put]
          · intro k hk
            cases k <;> simp_all [LMDBBackend.get_put, Key.belongsTo]
      | live d =>
        refine Follows.of_eq (x := .error .erofs) (s := r) (m := l) ?_ ?_ (hg.same _)
        · simp [RAMBackend.exec, RAMBackend.fill, hr, LogObject.fill, hb, he]
        · simp [LMDBBackend.exec, LMDBBackend.fill, hl, hbelow, hb, LMDBBackend.logEntryKey_eq, hy]
      | dead e t i d h₁ h₂ =>
        refine Follows.of_eq (x := .ok ()) (s := r.setLog a.name o) (m := l) ?_ ?_ hkeep
        · simp [RAMBackend.exec, RAMBackend.fill, hr, LogObject.fill, hb, he, h₁]
        · simp [LMDBBackend.exec, LMDBBackend.fill, hl, hbelow, hb, LMDBBackend.logEntryKey_eq,
            hy, h₂]

/-- The trim limit after both backends raised it. -/
private theorem exists_limit_raise (o : LogObject) (p : Nat) :
    ∃ n, (o.raiseTrimLimit p).trimLimit = some n ∧ p ≤ n ∧
      ∀ n', o.trimLimit = some n' → n' ≤ n := by
  unfold LogObject.raiseTrimLimit
  cases o.trimLimit with
  | none => exact ⟨p, rfl, le_refl _, by simp⟩
  | some m => exact ⟨max p m, rfl, le_max_left _ _, by simp⟩

/-- `Trim` with both flags: the limit covers everything and the entries are deleted. -/
theorem follows_trim_full {h : List (Done ν)} {r : RAMBackend ν} {l : LMDBBackend ν}
    (hg : Agrees h r l) {a : Oid} {epoch p : Nat} (hlt : p < 2 ^ 63)
    (hfull : ∀ q ∈ touched (onOid a.name h), q ≤ p) {o : LogObject} {t : Int}
    (hp : Present (touched (onOid a.name h)) r l a o t)
    (hr : r.checkIo a.name epoch = .ok o) (hl : l.checkIo a.name epoch = .ok (o.epoch, t)) :
    Follows h r l (.trim a.name epoch p true true) := by
  let t' := if 0 ≤ t then toInt64 (max p (toUInt64 t)) else toInt64 p
  let l₁ := l.put a.name (.log o.epoch t')
  refine Follows.of_eq (x := .ok ())
    (s := r.setLog a.name { o.raiseTrimLimit p with entries := ∅ })
    (m := (l₁.getAll (a.name ++ ".entry.")).foldl LMDBBackend.delete l₁) ?_ ?_ ?_
  · simp [RAMBackend.exec, RAMBackend.trim, hr, LogObject.trim]
  · simp [LMDBBackend.exec, LMDBBackend.trim, hl, l₁, t']
  · -- in one transaction: the limit is put, then the scan deletes every entry
    have hput : ∀ k : Key, l₁.get k.name =
        if k = .object a then some (.log o.epoch t') else l.get k.name := by
      intro k
      show (l.put a.name _).get k.name = _
      rw [← Key.object_name, LMDBBackend.get_put]
    refine hg.set_log a _ (t := t') ?_ ?_ (hp.limit.raise hlt) ?_ ?_
    · intro k hk
      rw [LMDBBackend.get_deleteEntries_of_ne _ _ (by rintro q rfl; exact hk rfl), hput, if_neg]
      rintro rfl
      exact hk rfl
    · rw [LMDBBackend.get_deleteEntries_of_ne _ _ (by simp), hput, if_pos rfl]
      simp
    · -- the record of the maximum is not deleted, it is covered by the new limit
      rw [LMDBBackend.get_deleteEntries_of_ne _ _ (by simp), hput, if_neg (by simp)]
      obtain ⟨n, hn, hpn, -⟩ := exists_limit_raise o p
      have hm := hp.maxPos
      generalize l.get (Key.maxPos a).name = m at hm
      have hcov : ∀ hmem : o.maxpos ∈ touched (onOid a.name h),
          MaxPosAgrees (ν := ν) (touched (onOid a.name
            (h ++ [⟨.trim a.name epoch p true true, .ok ()⟩])))
            { o.raiseTrimLimit p with entries := ∅ } (some (.maxPos o.maxpos)) := by
        intro hmem
        have hmax : ({ o.raiseTrimLimit p with entries := ∅ } : LogObject).maxpos = o.maxpos :=
          LogObject.maxpos_raiseTrimLimit o p
        rw [← hmax]
        refine .covered n hn ?_ ?_
        · rw [hmax]
          exact le_trans (hfull _ hmem) hpn
        · rw [hmax]
          exact touched_onOid_subset a.name h _ _ hmem
      cases hm with
      -- nothing was ever written
      | absent hk h0 =>
        exact .absent (fun k => AList.notMem_empty k)
          ((LogObject.maxpos_raiseTrimLimit o p).trans h0)
      -- what was written is at or below `p`
      | entries k hk hmem => exact hcov hmem
      | covered limit hlim hle hmem => exact hcov hmem
    · -- no entry is left
      intro q
      rw [LMDBBackend.get_deleteEntries_entry]
      exact .absent

/-- `Trim` of a range that keeps the entries. -/
theorem follows_trim_range {h : List (Done ν)} {r : RAMBackend ν} {l : LMDBBackend ν}
    (hg : Agrees h r l) {a : Oid} {epoch p : Nat} (hlt : p < 2 ^ 63) {o : LogObject} {t : Int}
    (hp : Present (touched (onOid a.name h)) r l a o t)
    (hr : r.checkIo a.name epoch = .ok o) (hl : l.checkIo a.name epoch = .ok (o.epoch, t)) :
    Follows h r l (.trim a.name epoch p true false) := by
  let t' := if 0 ≤ t then toInt64 (max p (toUInt64 t)) else toInt64 p
  have hlim : LimitAgrees (o.raiseTrimLimit p).trimLimit t' := hp.limit.raise hlt
  have hbelow : LMDBBackend.belowTrimLimit t' p = true := by
    rw [hlim.below, LogObject.belowTrimLimit_raiseTrimLimit]
    simp
  refine Follows.of_eq (x := .ok ()) (s := r.setLog a.name (o.raiseTrimLimit p))
    (m := l.put a.name (.log o.epoch t')) ?_ ?_ ?_
  · simp [RAMBackend.exec, RAMBackend.trim, hr, LogObject.trim_range]
  · simp [LMDBBackend.exec, LMDBBackend.trim, hl, t', hbelow]
  · rw [← Key.object_name]
    -- the entries stay, the limit hides them
    refine hg.set_log a _ (t := t') ?_ ?_ hlim ?_ ?_
    · intro k hk
      rw [LMDBBackend.get_put, if_neg]
      rintro rfl
      exact hk rfl
    · simp [LMDBBackend.get_put]
    · have hm := hp.maxPos.mono
        (touched_onOid_subset a.name h ⟨.trim a.name epoch p true false, .ok ()⟩)
      simp only [LMDBBackend.get_put, reduceCtorEq, if_false]
      obtain ⟨n, hn, -, hge⟩ := exists_limit_raise o p
      refine hm.congr (LogObject.maxpos_raiseTrimLimit o p) (fun k => by simp) ?_
      intro n' hn'
      exact ⟨n, hn, hge n' hn'⟩
    · intro q
      simpa [LMDBBackend.get_put] using hp.entry q

/-- `Trim` of a single position. -/
theorem follows_trim_single {h : List (Done ν)} {r : RAMBackend ν} {l : LMDBBackend ν}
    (hg : Agrees h r l) {a : Oid} {epoch p : Nat} {o : LogObject} {t : Int}
    (hp : Present (touched (onOid a.name h)) r l a o t)
    (hr : r.checkIo a.name epoch = .ok o) (hl : l.checkIo a.name epoch = .ok (o.epoch, t)) :
    Follows h r l (.trim a.name epoch p false false) := by
  have hbelow := hp.limit.below p
  -- LMDB stores the object record again, with the values it has
  let l₁ := l.put a.name (.log o.epoch t)
  have hput : ∀ k : Key, l₁.get k.name = l.get k.name := by
    intro k
    show (l.put a.name _).get k.name = _
    rw [← Key.object_name, LMDBBackend.get_put]
    split
    · next hk =>
      rw [hk]
      exact hp.object.symm
    · rfl
  have hp₁ : Present (touched (onOid a.name h)) r l₁ a o t := by
    refine ⟨hp.ram, (hput _).trans hp.object, hp.limit, ?_, ?_⟩
    · rw [hput]
      exact hp.maxPos
    · intro q
      rw [hput]
      exact hp.entry q
  by_cases hb : o.belowTrimLimit p = true
  · refine Follows.of_eq (x := .ok ()) (s := r.setLog a.name o) (m := l₁) ?_ ?_ ?_
    · simp [RAMBackend.exec, RAMBackend.trim, hr, LogObject.trim, hb]
    · simp [LMDBBackend.exec, LMDBBackend.trim, hl, hbelow, hb, l₁]
    · refine hg.set_log a _ (fun k _ => hput k) hp₁.object hp₁.limit ?_ hp₁.entry
      exact hp₁.maxPos.mono (touched_onOid_subset a.name h _)
  · rw [Bool.not_eq_true] at hb
    have hfinish : ∀ (e : LogEntry) (i : Bool), e.trimmed = true →
        o.trim p false false = { o with entries := o.entries.insert p e,
                                        maxpos := max o.maxpos p } →
        l₁.trimEntry a.name p = .ok (l₁.putEntry a.name p (.entry true i p "") o.maxpos) →
        Follows h r l (.trim a.name epoch p false false) := by
      intro e i he hram hlmdb
      refine Follows.of_eq (x := .ok ()) (s := r.setLog a.name (o.trim p false false))
        (m := l₁.putEntry a.name p (.entry true i p "") o.maxpos) ?_ ?_ ?_
      · simp [RAMBackend.exec, RAMBackend.trim, hr]
      · simp only [l₁] at hlmdb ⊢
        simp [LMDBBackend.exec, LMDBBackend.trim, hl, hbelow, hb, hlmdb]
      · rw [hram]
        unfold LMDBBackend.putEntry
        rw [LMDBBackend.maxPosKey_eq, LMDBBackend.logEntryKey_eq]
        refine hg.add_entry hp (.dead e true i "" (by simp [he]) rfl) rfl rfl ?_ ?_ ?_ ?_
        · simp [LMDBBackend.get_put, hput]
        · simp [LMDBBackend.get_put]
        · intro q
          simp [LMDBBackend.get_put, hput]
        · intro k hk
          cases k <;> simp_all [LMDBBackend.get_put, Key.belongsTo]
    have hent := hp₁.entry p
    generalize he : o.entries.lookup p = x at hent
    generalize hy : l₁.get (Key.entry a p).name = y at hent
    have hram : o.trim p false false = o.trimEntry p := by simp [LogObject.trim, hb]
    unfold LogObject.trimEntry at hram
    rw [he] at hram
    cases hent with
    | absent =>
      refine hfinish LogObject.junkEntry false rfl hram ?_
      simp [LMDBBackend.trimEntry, LMDBBackend.logEntryKey_eq, hy, hp₁.readMaxPos]
    | live d =>
      refine hfinish _ false rfl hram ?_
      simp [LMDBBackend.trimEntry, LMDBBackend.logEntryKey_eq, hy, hp₁.readMaxPos]
    | dead e t i d h₁ h₂ =>
      refine hfinish _ i rfl hram ?_
      simp [LMDBBackend.trimEntry, LMDBBackend.logEntryKey_eq, hy, hp₁.readMaxPos]

/-- `Trim` on both sides, with the flags as the client may set them. -/
theorem follows_trim {h : List (Done ν)} {r : RAMBackend ν} {l : LMDBBackend ν}
    (hg : Agrees h r l) (a : Oid) (epoch p : Nat) (hlt : p < 2 ^ 63) (tl tf : Bool)
    (hok : FullTrimOk h (.trim a.name epoch p tl tf : Call ν _)) :
    Follows h r l (.trim a.name epoch p tl tf) := by
  -- a full trim that is no range trim is refused before anything is read
  by_cases hflags : tf = true ∧ tl = false
  · obtain ⟨rfl, rfl⟩ := hflags
    exact Follows.of_eq (x := .error .einval) (s := r) (m := l) rfl rfl (hg.same _)
  · have hcond : (tf && !tl) = false := by
      cases tf <;> cases tl <;> simp_all
    rcases hg.checkIo a epoch with ⟨e, hr, hl⟩ | ⟨o, t, hp, hr, hl⟩
    · refine Follows.of_eq (x := .error e) (s := r) (m := l) ?_ ?_ (hg.same _)
      · simp [RAMBackend.exec, RAMBackend.trim, hcond, hr]
      · simp [LMDBBackend.exec, LMDBBackend.trim, hcond, hl]
    · cases tl with
      | false =>
        cases tf with
        | false => exact follows_trim_single hg hp hr hl
        | true => simp at hflags
      | true =>
        cases tf with
        | false => exact follows_trim_range hg hlt hp hr hl
        | true => exact follows_trim_full hg hlt hok hp hr hl

/-! ## Views -/

/-- What the two backends hold for a log that exists. -/
structure HeadPresent (r : RAMBackend ν) (l : LMDBBackend ν) (u : Uuid)
    (proj : ProjectionObject ν) (id : Nat) (vs : List ν) : Prop where
  ram : r.objects.lookup u.hoid = some (.projection proj)
  head : l.get (Key.head u).name = some (.projection proj.epoch id proj.pfx)
  ne_nil : vs ≠ []
  epoch : proj.epoch = vs.length
  views : proj.projections.toList = Lib.OrderedMap.numbered 1 vs
  view : ∀ e, l.get (Key.view u e).name = if 1 ≤ e then vs[e - 1]?.map .view else none

/-- The head object is missing on both sides, or present on both. -/
theorem Agrees.head_cases {h : List (Done ν)} {r : RAMBackend ν} {l : LMDBBackend ν}
    (hg : Agrees h r l) (u : Uuid) :
    (r.objects.lookup u.hoid = none ∧ l.get (Key.head u).name = none ∧
      ∀ e, l.get (Key.view u e).name = none) ∨
    ∃ proj id vs, HeadPresent r l u proj id vs := by
  have hh := hg.head u
  generalize hx : r.objects.lookup u.hoid = x at hh
  generalize hy : l.get (Key.head u).name = y at hh
  generalize hv : (fun e => l.get (Key.view u e).name) = views at hh
  cases hh with
  | absent => exact Or.inl ⟨rfl, rfl, fun e => congrFun hv e⟩
  | present proj id vs _ hne hep hviews hview =>
    refine Or.inr ⟨proj, id, vs, ⟨hx, hy, hne, hep, hviews, fun e => ?_⟩⟩
    exact (congrFun hv e).trans (hview e)

/-- RAM copies the views it has, up to the maximum. -/
theorem ram_readViewsFrom (e m : Nat) (vs : List ν) :
    RAMBackend.readViewsFrom (Lib.OrderedMap.numbered e vs) e m =
      .ok (Lib.OrderedMap.numbered e (vs.take m)) := by
  induction m generalizing e vs with
  | zero => simp [RAMBackend.readViewsFrom]
  | succ m ih =>
    cases vs with
    | nil => simp [RAMBackend.readViewsFrom]
    | cons v vs => simp [RAMBackend.readViewsFrom, ih]

/-- LMDB reads the views one key after the other, until one is missing; the induction is on the
    maximum. -/
theorem lmdb_readViewsFrom {l : LMDBBackend ν} {u : Uuid} {vs : List ν}
    (hview : ∀ e, l.get (Key.view u e).name = if 1 ≤ e then vs[e - 1]?.map .view else none)
    (e m : Nat) (he : 1 ≤ e) :
    l.readViewsFrom u.hoid e m =
      .ok (Lib.OrderedMap.numbered e ((vs.drop (e - 1)).take m)) := by
  induction m generalizing e with
  | zero => simp [LMDBBackend.readViewsFrom]
  | succ m ih =>
    simp only [LMDBBackend.readViewsFrom, LMDBBackend.projectionKey_eq, hview e, he, if_true]
    cases hv : vs[e - 1]? with
    -- past the last view
    | none =>
      have hlen : vs.length ≤ e - 1 := List.getElem?_eq_none_iff.mp hv
      simp [List.drop_eq_nil_of_le hlen]
    -- a view, and those after it
    | some v =>
      have hdrop : vs.drop (e - 1) = v :: vs.drop e := by
        obtain ⟨hlt, hget⟩ := List.getElem?_eq_some_iff.mp hv
        rw [List.drop_eq_getElem_cons hlt, hget, Nat.sub_add_cancel he]
      simp [ih (e + 1) (by omega), hdrop]

/-- `ReadViews` on both sides. -/
theorem follows_readViews {h : List (Done ν)} {r : RAMBackend ν} {l : LMDBBackend ν}
    (hg : Agrees h r l) (u : Uuid) (epoch maxViews : Nat) :
    Follows h r l (.readViews u.hoid epoch maxViews) := by
  refine ⟨?_, hg.same _⟩
  show r.readViews u.hoid epoch maxViews = l.readViews u.hoid epoch maxViews
  unfold RAMBackend.readViews LMDBBackend.readViews
  simp only [u.hoid_ne_empty, if_false]
  rcases hg.head_cases u with ⟨hr, hl, -⟩ | ⟨proj, id, vs, hp⟩
  · rw [Key.head_name] at hl
    rw [hr, hl]
  · have hl := hp.head
    rw [Key.head_name] at hl
    rw [hp.ram, hl]
    dsimp only
    have hlen : 1 ≤ vs.length := List.length_pos_iff.mpr hp.ne_nil
    -- no such view yet
    by_cases hlt : proj.epoch < epoch
    · simp [hlt]
    · simp only [hlt, if_false]
      -- epoch 0 asks for the latest view
      by_cases he : epoch = 0
      · have hne : proj.epoch ≠ 0 := by rw [hp.epoch]; omega
        have hlast : vs[vs.length - 1]? = some (vs.getLast hp.ne_nil) := by
          rw [List.getLast_eq_getElem, List.getElem?_eq_getElem]
        have hview := hp.view vs.length
        rw [if_pos hlen, hlast] at hview
        rw [if_pos he, if_pos he, if_neg hne, LMDBBackend.projectionKey_eq, hp.epoch, hview]
        simp [Lib.OrderedMap.last?, hp.views, Lib.OrderedMap.getLast?_numbered,
          List.getLast?_eq_some_getLast hp.ne_nil]
      · -- any other epoch for the views from there on
        have hge : 1 ≤ epoch := by omega
        have hlt' : epoch - 1 < vs.length := by
          have := hp.epoch
          omega
        have hfind : (proj.projections.find? epoch).isNone = false := by
          unfold Lib.OrderedMap.find?
          rw [hp.views, Lib.OrderedMap.find?_numbered, if_pos hge,
            List.getElem?_eq_getElem hlt']
          rfl
        simp only [he, if_false, hfind, Bool.false_eq_true]
        rw [hp.views, Lib.OrderedMap.dropWhile_numbered 1 epoch vs hge, ram_readViewsFrom,
          lmdb_readViewsFrom hp.view epoch maxViews hge]

/-- A call that changes one log's views only. -/
theorem Agrees.set_head {h : List (Done ν)} {r r' : RAMBackend ν} {l l' : LMDBBackend ν}
    (hg : Agrees h r l) (u : Uuid) (hstores : r'.blackhole = r.blackhole)
    (hr : ∀ key, key ≠ u.hoid → (∃ k : Key, k.name = key) →
      r'.objects.lookup key = r.objects.lookup key)
    (hl : ∀ k : Key, k ≠ .head u → (∀ e, k ≠ .view u e) → l'.get k.name = l.get k.name)
    (hh : HeadAgrees (r'.objects.lookup u.hoid) (l'.get (Key.head u).name)
      (fun e => l'.get (Key.view u e).name)) : Agrees h r' l' := by
  refine ⟨hstores.trans hg.stores, ?_, ?_⟩
  · intro a
    -- the log objects are not touched
    rw [hr a.name (u.hoid_ne_oid a).symm ⟨.object a, Key.object_name a⟩,
      hl (.object a) (by simp) (by simp), hl (.maxPos a) (by simp) (by simp)]
    simp only [fun p => hl (.entry a p) (by simp) (by simp)]
    exact hg.object a
  · intro v
    -- the head object of the call, and every other one
    by_cases hv : v = u
    · rw [hv]
      exact hh
    · rw [hr v.hoid (fun hn => hv (Uuid.hoid_injective hn)) ⟨.head v, Key.head_name v⟩,
        hl (.head v) (by simpa using hv) (by simp)]
      simp only [fun e => hl (.view v e) (by simp) (by simp [hv])]
      exact hg.head v

/-- `ProposeView` on both sides. -/
theorem follows_proposeView {h : List (Done ν)} {r : RAMBackend ν} {l : LMDBBackend ν}
    (hg : Agrees h r l) (u : Uuid) (epoch : Nat) (view : ν) :
    Follows h r l (.proposeView u.hoid epoch view) := by
  have hfail : ∀ err : Errno, r.proposeView u.hoid epoch view = (.error err, r) →
      l.proposeView u.hoid epoch view = (.error err, l) →
      Follows h r l (.proposeView u.hoid epoch view) :=
    fun err hr hl => Follows.of_eq (x := .error err) hr hl (hg.same _)
  by_cases he : epoch = 0
  · refine hfail .einval ?_ ?_
    · simp [RAMBackend.proposeView, u.hoid_ne_empty, he]
    · simp [LMDBBackend.proposeView, u.hoid_ne_empty, he]
  · rcases hg.head_cases u with ⟨hr, hl, -⟩ | ⟨proj, id, vs, hp⟩
    · rw [Key.head_name] at hl
      refine hfail .enoent ?_ ?_
      · simp [RAMBackend.proposeView, u.hoid_ne_empty, he, hr]
      · simp [LMDBBackend.proposeView, u.hoid_ne_empty, he, hl]
    · have hl := hp.head
      rw [Key.head_name] at hl
      by_cases hgt : proj.epoch + 1 < epoch
      · refine hfail .einval ?_ ?_
        · simp [RAMBackend.proposeView, u.hoid_ne_empty, he, hp.ram, hgt]
        · simp [LMDBBackend.proposeView, u.hoid_ne_empty, he, hl, hgt]
      · by_cases hne : epoch ≠ proj.epoch + 1
        · refine hfail .espipe ?_ ?_
          · simp [RAMBackend.proposeView, u.hoid_ne_empty, he, hp.ram, hgt, hne]
          · simp [LMDBBackend.proposeView, u.hoid_ne_empty, he, hl, hgt, hne]
        · rw [not_not] at hne
          subst hne
          -- the epoch is the next one, for which neither backend holds a view yet
          have hfresh : l.get (Key.view u (proj.epoch + 1)).name = none := by
            rw [hp.view, hp.epoch]
            simp
          have hfind : (proj.projections.find? (proj.epoch + 1)).isSome = false := by
            unfold Lib.OrderedMap.find?
            rw [hp.views, Lib.OrderedMap.find?_numbered, hp.epoch]
            simp
          refine Follows.of_eq (x := .ok ())
            (s := { r with objects := r.objects.insert u.hoid (.projection
              { proj with epoch := proj.epoch + 1,
                          projections := proj.projections.emplace (proj.epoch + 1) view }) })
            (m := (l.put (Key.view u (proj.epoch + 1)).name (.view view)).put (Key.head u).name
              (.projection (proj.epoch + 1) id proj.pfx)) ?_ ?_ ?_
          · simp [RAMBackend.exec, RAMBackend.proposeView, u.hoid_ne_empty, hp.ram, hfind]
          · simp [LMDBBackend.exec, LMDBBackend.proposeView, u.hoid_ne_empty, hl,
              LMDBBackend.projectionKey_eq, LMDBBackend.putNew, hfresh, Key.head_name]
          · refine (hg.same _).set_head u rfl ?_ ?_ ?_
            · intro key hkey _
              exact AList.lookup_insert_ne hkey
            · intro k hk hkv
              rw [LMDBBackend.get_put, if_neg hk, LMDBBackend.get_put, if_neg (hkv _)]
            · dsimp only
              rw [AList.lookup_insert, LMDBBackend.get_put, if_pos rfl]
              refine .present { proj with
                  epoch := proj.epoch + 1,
                  projections := proj.projections.emplace (proj.epoch + 1) view }
                id (vs ++ [view]) _ (by simp) ?_ ?_ ?_
              · simp [hp.epoch]
              · show Lib.OrderedMap.insertList (proj.epoch + 1) view proj.projections.toList = _
                rw [hp.views, hp.epoch, Nat.add_comm, Lib.OrderedMap.insertList_numbered]
              · intro e
                rw [LMDBBackend.get_put, if_neg (by simp), LMDBBackend.get_put, hp.view, hp.epoch]
                by_cases hee : e = vs.length + 1
                · subst hee
                  simp
                · simp only [Key.view.injEq, true_and, hee, if_false]
                  by_cases h1 : 1 ≤ e
                  · by_cases hlt : e - 1 < vs.length
                    · simp [h1, List.getElem?_append_left hlt]
                    · have hge : vs.length + 1 ≤ e - 1 := by omega
                      have hnone : vs[e - 1]? = none := List.getElem?_eq_none (by omega)
                      have hnone' : (vs ++ [view])[e - 1]? = none :=
                        List.getElem?_eq_none (by simpa using hge)
                      simp [hnone, hnone']
                  · simp [h1]

/-! ## All calls -/

/-- **One call**: the backends answer alike and stay related. -/
theorem Agrees.exec {h : List (Done ν)} {r : RAMBackend ν} {l : LMDBBackend ν}
    (hg : Agrees h r l) {α : Type} {c : Call ν α} (hc : OnLogs c) (hok : FullTrimOk h c) :
    (r.exec c).1 = (l.exec c).1 ∧
      Agrees (h ++ [⟨c, (r.exec c).1⟩]) (r.exec c).2 (l.exec c).2 := by
  cases hc with
  | «seal» a epoch => exact follows_seal hg a epoch
  | read a epoch p => exact follows_read hg a epoch p
  | write a data epoch p => exact follows_write hg a data epoch p
  | fill a epoch p => exact follows_fill hg a epoch p
  | trim a epoch p tl tf hlt => exact follows_trim hg a epoch p hlt tl tf hok
  | maxPos a => exact follows_maxPos hg a
  | proposeView u epoch view => exact follows_proposeView hg u epoch view
  | readViews u epoch maxViews => exact follows_readViews hg u epoch maxViews

/-- The answers of a whole sequence, from stores that agree. -/
theorem Agrees.answers_eq {h : List (Done ν)} {r : RAMBackend ν} {l : LMDBBackend ν}
    (hg : Agrees h r l) (cs : List (AnyCall ν)) (hcs : Disciplined h r cs) :
    answers r cs = l.answers cs := by
  induction cs generalizing h r l with
  | nil => rfl
  | cons c cs ih =>
    obtain ⟨α, c⟩ := c
    obtain ⟨hc, hok, hrest⟩ := hcs
    have ⟨heq, hg'⟩ := hg.exec hc hok
    show (⟨c, (r.exec c).1⟩ : Done ν) :: _ = ⟨c, (l.exec c).1⟩ :: _
    rw [heq, ih hg' hrest]

/-! ## Creating logs -/

/-- Two stores with nothing in them. -/
theorem Agrees.empty : Agrees (ν := ν) [] {} {} :=
  ⟨rfl, fun _ => .absent, fun _ => .absent⟩

/-- A `CreateLog` that succeeds has put three new records. -/
theorem LMDBBackend.createLog_ok {l l' : LMDBBackend ν} {name : String} {view : ν} {u : Uuid}
    {x : String × String} (h : l.createLog name view u.text = (.ok x, l')) :
    l.get (Key.head u).name = none ∧
    l' = ((l.put (Key.head u).name (.projection 1 0 u.pfx)).put
      (Key.view u 1).name (.view view)).put ("head." ++ name) (.link u.hoid) := by
  unfold LMDBBackend.createLog at h
  split at h
  · simp at h
  · dsimp only at h
    split at h
    · simp at h
    · next b₁ h₁ =>
      split at h
      · simp at h
      · next b₂ h₂ =>
        split at h
        · simp at h
        · next b₃ h₃ =>
          -- none of the three was there before
          obtain ⟨hn, rfl⟩ := LMDBBackend.putNew_eq_some.mp h₁
          obtain ⟨-, rfl⟩ := LMDBBackend.putNew_eq_some.mp h₂
          obtain ⟨-, rfl⟩ := LMDBBackend.putNew_eq_some.mp h₃
          cases h
          rw [Key.head_name, Key.view_name]
          exact ⟨hn, rfl⟩

/-- The link is no record of an object or a head object. -/
theorem LMDBBackend.get_putLink (l : LMDBBackend ν) (name : String) (x : Record ν) (k : Key) :
    (l.put ("head." ++ name) x).get k.name = l.get k.name :=
  AList.lookup_insert_ne (link_ne_key name k)

/-- A log created on both backends. -/
theorem Agrees.createLog {h : List (Done ν)} {r r' : RAMBackend ν} {l l' : LMDBBackend ν}
    (hg : Agrees h r l) (log : NewLog ν) {x y : String × String}
    (hr : r.createLog log.name log.view log.uuid.text = (.ok x, r'))
    (hl : l.createLog log.name log.view log.uuid.text = (.ok y, l')) : Agrees h r' l' := by
  obtain ⟨hfresh, rfl⟩ := RAMBackend.createLog_ok hr
  obtain ⟨-, rfl⟩ := LMDBBackend.createLog_ok hl
  -- no view of a log that has no head object
  have hviews : ∀ e, l.get (Key.view log.uuid e).name = none := by
    rcases hg.head_cases log.uuid with ⟨-, -, hv⟩ | ⟨proj, id, vs, hp⟩
    · exact hv
    · rw [hp.ram] at hfresh
      cases hfresh
  have hlink : ∀ k : Key, k.name ≠ "head." ++ log.name := link_ne_key log.name
  refine hg.set_head log.uuid rfl ?_ ?_ ?_
  · rintro key hkey ⟨k, rfl⟩
    dsimp only
    rw [AList.lookup_insert_ne (hlink k), AList.lookup_insert_ne hkey]
  · intro k hk hkv
    rw [LMDBBackend.get_putLink, LMDBBackend.get_put, if_neg (hkv 1), LMDBBackend.get_put,
      if_neg hk]
  · dsimp only
    rw [← Key.head_name, AList.lookup_insert_ne (hlink _), AList.lookup_insert,
      LMDBBackend.get_putLink, LMDBBackend.get_put, if_neg (by simp), LMDBBackend.get_put,
      if_pos rfl]
    refine .present { epoch := 1, pfx := log.uuid.pfx, projections := .singleton 1 log.view } 0
      [log.view] _ (by simp) rfl rfl ?_
    intro e
    rw [LMDBBackend.get_putLink, LMDBBackend.get_put]
    -- the first view has epoch 1, and there is no other
    by_cases he : e = 1
    · subst he
      simp
    · rw [if_neg (by simpa using he), LMDBBackend.get_put, if_neg (by simp), hviews]
      by_cases h1 : 1 ≤ e
      · have hnone : ([log.view] : List ν)[e - 1]? = none :=
          List.getElem?_eq_none (by simp; omega)
        simp [hnone]
      · simp [h1]

/-- Creating the logs one after the other. -/
theorem Agrees.createLogs {h : List (Done ν)} {r r' : RAMBackend ν} {l l' : LMDBBackend ν}
    (hg : Agrees h r l) {logs : List (NewLog ν)} (hr : r.createLogs logs = some r')
    (hl : l.createLogs logs = some l') : Agrees h r' l' := by
  induction logs generalizing r l with
  | nil =>
    cases hr
    cases hl
    exact hg
  | cons log logs ih =>
    simp only [RAMBackend.createLogs] at hr
    simp only [LMDBBackend.createLogs] at hl
    split at hr
    · next x b hrx =>
      split at hl
      · next y b' hly => exact ih (hg.createLog log hrx hly) hr hl
      · cases hl
    · cases hr

/-- **The LMDB and RAM backends agree**: fresh backends holding the same created logs answer
    every disciplined sequence of calls alike, call by call. -/
theorem lmdb_answers_eq_ram_answers (logs : List (NewLog ν)) {r : RAMBackend ν}
    {l : LMDBBackend ν} (hr : ({} : RAMBackend ν).createLogs logs = some r)
    (hl : ({} : LMDBBackend ν).createLogs logs = some l) (calls : List (AnyCall ν))
    (hcalls : Disciplined [] r calls) : l.answers calls = answers r calls :=
  ((Agrees.empty.createLogs hr hl).answers_eq calls hcalls).symm

/-- Write two positions, trim one, delete both under a limit, then ask for the maximum. -/
def fullTrimCalls (a : Oid) : List (AnyCall Nat) :=
  [⟨_, .seal a.name 1⟩, ⟨_, .write a.name "x" 1 3⟩, ⟨_, .fill a.name 1 8⟩,
    ⟨_, .trim a.name 1 3 false false⟩, ⟨_, .trim a.name 1 9 true true⟩, ⟨_, .maxPos a.name⟩,
    ⟨_, .proposeView a.uuid.hoid 2 7⟩, ⟨_, .readViews a.uuid.hoid 1 5⟩]

/-- A log with three entries under a full trim. -/
theorem lmdb_answers_eq_ram_answers_fullTrim :
    ∃ r l, ({} : RAMBackend Nat).createLogs [⟨"log", 0, Uuid.zero⟩] = some r ∧
      ({} : LMDBBackend Nat).createLogs [⟨"log", 0, Uuid.zero⟩] = some l ∧
      l.answers (fullTrimCalls ⟨Uuid.zero, 0, 0⟩) = answers r (fullTrimCalls ⟨Uuid.zero, 0, 0⟩) := by
  refine ⟨_, _, rfl, rfl, lmdb_answers_eq_ram_answers [⟨"log", 0, Uuid.zero⟩] rfl rfl _ ?_⟩
  refine ⟨.seal _ _, trivial, .write _ _ _ _ (by norm_num), trivial, .fill _ _ _ (by norm_num),
    trivial, .trim _ _ _ _ _ (by norm_num), trivial, .trim _ _ _ _ _ (by norm_num), ?_,
    .maxPos _, trivial, .proposeView _ _ _, trivial, .readViews _ _ _, trivial, trivial⟩
  show ∀ q ∈ touched _, q ≤ 9
  decide +kernel

end ZLog
