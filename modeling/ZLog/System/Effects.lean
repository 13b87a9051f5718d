import ZLog.System.Assertions

/-!
# What a call changes

Frame conditions of the calls of clients: the positions whose state a call may change, and the
entries it may create.

## Main results

- `CallOk.positionSlot_frame`: a call leaves the positions it does not touch alone.
- `CallOk.mem_newEntries`: an entry is created by a `Write`, `Fill` or single `Trim` at its
  position, with an epoch the object accepts.
- `CallOk.newEntries_write`: a `Write` creates one entry when it succeeds.
-/

namespace ZLog

/-- The positions a call may change. -/
def Call.Touches : {α : Type} → Call Fbs.View α → Nat → Prop
  | _, .write _ _ _ position, q => q = position
  | _, .fill _ _ position, q => q = position
  | _, .trim _ _ position trimLimit _, q => LogObject.TrimCovers position trimLimit q
  | _, _, _ => False

/-- The call trims the position. -/
def Call.Trims : {α : Type} → Call Fbs.View α → Nat → Prop
  | _, .trim _ _ position trimLimit _, q => LogObject.TrimCovers position trimLimit q
  | _, _, _ => False

/-- Object, epoch and position of the calls that may create an entry. -/
def Call.entry? : {α : Type} → Call Fbs.View α → Option (String × Nat × Nat)
  | _, .write oid _ epoch position => some (oid, epoch, position)
  | _, .fill oid epoch position => some (oid, epoch, position)
  | _, .trim oid epoch position false _ => some (oid, epoch, position)
  | _, _ => none

/-- The entry of an object at a position. -/
def entryAt (b : Store) (oid : String) (p : Nat) : Option LogEntry :=
  match b.logAt oid with
  | none => none
  | some o => o.entries.lookup p

section

variable {u : Uuid} {name : String} {b b' : Store} {s i : Nat}

/-! ## Entries -/

/-- The keys of the entries that a store holds. -/
theorem mem_entryKeys {x : String × Nat} :
    x ∈ entryKeys b ↔ ∃ o, b.logAt x.1 = some o ∧ x.2 ∈ o.entries := by
  unfold entryKeys
  rw [List.mem_flatMap]
  constructor
  · rintro ⟨object, hmem, hx⟩
    have hl : b.objects.lookup object.1 = some object.2 := AList.mem_lookup_iff.mpr hmem
    split at hx
    · next o ho =>
      obtain ⟨p, hp, rfl⟩ := List.mem_map.mp hx
      exact ⟨o, RAMBackend.logAt_eq_some.mpr (hl.trans (congrArg some ho)), AList.mem_keys.mpr hp⟩
    · cases hx
  · rintro ⟨o, ho, hp⟩
    refine ⟨⟨x.1, .log o⟩, AList.mem_lookup_iff.mp (RAMBackend.logAt_eq_some.mp ho), ?_⟩
    exact List.mem_map.mpr ⟨x.2, AList.mem_keys.mp hp, rfl⟩

/-- No entry is counted twice. -/
theorem nodup_entryKeys (b : Store) : (entryKeys b).Nodup := by
  unfold entryKeys
  rw [List.nodup_flatMap]
  refine ⟨fun object _ => ?_, ?_⟩
  · split
    · next o _ => exact o.entries.keys_nodup.map fun p q h => congrArg Prod.snd h
    · exact List.nodup_nil
  · -- two objects have different names
    have hkeys : b.objects.entries.Pairwise fun x y => x.1 ≠ y.1 :=
      List.pairwise_map.mp b.objects.keys_nodup
    refine hkeys.imp fun {x y} hne => ?_
    intro z hzx hzy
    dsimp only at hzx hzy
    split at hzx
    · split at hzy
      · obtain ⟨p, -, hp⟩ := List.mem_map.mp hzx
        obtain ⟨q, -, hq⟩ := List.mem_map.mp hzy
        exact hne (congrArg Prod.fst (hp.trans hq.symm))
      · cases hzy
    · cases hzx

/-- The new entries are those that were not there before. -/
theorem mem_newEntries {x : String × Nat} :
    x ∈ newEntries b b' ↔ x ∈ entryKeys b' ∧ x ∉ entryKeys b := by
  simp [newEntries]

/-- No key is new, so there is nothing in the list. -/
theorem newEntries_eq_nil (h : ∀ x, x ∉ newEntries b b') : newEntries b b' = [] :=
  List.eq_nil_iff_forall_not_mem.mpr h

/-- Nothing changed, nothing is new. -/
@[simp] theorem newEntries_self (b : Store) : newEntries b b = [] :=
  newEntries_eq_nil fun _ hx => (mem_newEntries.mp hx).2 (mem_newEntries.mp hx).1

/-- New entries of a replaced object. -/
theorem mem_newEntries_setLog {oid : String} {o' : LogObject} {x : String × Nat}
    (h : x ∈ newEntries b (b.setLog oid o')) :
    x.1 = oid ∧ x.2 ∈ o'.entries ∧ ∀ o, b.logAt oid = some o → x.2 ∉ o.entries := by
  obtain ⟨hnew, hold⟩ := mem_newEntries.mp h
  obtain ⟨o, ho, hp⟩ := mem_entryKeys.mp hnew
  by_cases heq : x.1 = oid
  · rw [heq, RAMBackend.logAt_setLog] at ho
    cases ho
    exact ⟨heq, hp, fun o ho hpo => hold (mem_entryKeys.mpr ⟨o, heq ▸ ho, hpo⟩)⟩
  · rw [RAMBackend.logAt_setLog_ne b _ heq] at ho
    exact absurd (mem_entryKeys.mpr ⟨o, ho, hp⟩) hold

/-- Replacing an object by one with no other entries. -/
theorem newEntries_setLog_eq_nil {oid : String} {o' : LogObject}
    (h : ∀ p ∈ o'.entries, ∃ o, b.logAt oid = some o ∧ p ∈ o.entries) :
    newEntries b (b.setLog oid o') = [] := by
  refine newEntries_eq_nil fun x hx => ?_
  obtain ⟨-, hp, hno⟩ := mem_newEntries_setLog hx
  obtain ⟨o, ho, hpo⟩ := h x.2 hp
  exact hno o ho hpo

/-- Calls that leave the objects alone. -/
theorem newEntries_congr (h : ∀ oid, b'.logAt oid = b.logAt oid) : newEntries b b' = [] := by
  refine newEntries_eq_nil fun x hx => ?_
  obtain ⟨hnew, hold⟩ := mem_newEntries.mp hx
  obtain ⟨o, ho, hp⟩ := mem_entryKeys.mp hnew
  exact hold (mem_entryKeys.mpr ⟨o, h x.1 ▸ ho, hp⟩)

/-! ## New entries of a call -/

/-- `Seal` stores no entry. -/
theorem newEntries_seal (b : Store) (oid : String) (e : Nat) :
    newEntries b (b.seal oid e).2 = [] := by
  rcases b.seal_cases oid e with ⟨-, hs⟩ | ⟨-, -, -, hs⟩ | ⟨o, -, -, hs⟩ | ⟨o, ho, -, -, hs⟩ |
    ⟨-, -, hs⟩ <;> rw [hs]
  · exact newEntries_self b
  · exact newEntries_setLog_eq_nil fun p hp => absurd hp (AList.notMem_empty p)
  · exact newEntries_self b
  · exact newEntries_setLog_eq_nil fun p hp => ⟨o, ho, hp⟩
  · exact newEntries_self b

/-- A range trim stores no entry. -/
theorem newEntries_trim_range (b : Store) (oid : String) (e p : Nat) (full : Bool) :
    newEntries b (b.trim oid e p true full).2 = [] := by
  rcases b.trim_cases oid e p true full with ⟨-, -, ht⟩ | ⟨err, -, ht⟩ | ⟨o, hio, -, ht⟩ <;> rw [ht]
  · exact newEntries_self b
  · exact newEntries_self b
  · obtain ⟨-, -, ho, -⟩ := RAMBackend.checkIo_eq_ok.mp hio
    refine newEntries_setLog_eq_nil fun q hq => ⟨o, ho, ?_⟩
    cases full with
    | false =>
      rw [LogObject.trim_range] at hq
      simpa using hq
    | true => exact absurd hq (AList.notMem_empty q)

/-- A new view leaves the log objects as they are. -/
theorem LogOk.logAt_proposeView (h : LogOk u name b) {e : Nat} {v v' : View}
    (hv : ViewAt (viewsOf u b) e v) (hn : NextView e v v') (oid : String) :
    (b.proposeView u.hoid (e + 1) v'.encode).2.logAt oid = b.logAt oid := by
  obtain ⟨proj, blobs, hl, -⟩ := h.head.head
  rcases h.proposeView hv hn with ⟨-, hp⟩ | ⟨-, b', hp, -, -, hkeys, proj', -, hl', -⟩ <;> rw [hp]
  unfold RAMBackend.logAt
  by_cases heq : oid = u.hoid
  · rw [heq, hl, hl']
  · rw [hkeys oid heq]

/-- **Entry creation**: a new entry is the work of an entry call at its position, with an epoch
    that the object accepts. -/
theorem CallOk.mem_newEntries (h : LogOk u name b) {α : Type} {c : Call Fbs.View α}
    (hc : CallOk u name b c) {x : String × Nat} (hx : x ∈ newEntries b (b.exec c).2) :
    ∃ s i e v last, c.entry? = some (dataOid u s i, e, x.2) ∧ x.1 = dataOid u s i ∧
      ViewAt (viewsOf u b) e v ∧ v.objectMap.map x.2 = .ok (some (Stripe.oidAt s i), last) ∧
      objectEpoch u b s i ≤ e := by
  have hself : x ∉ newEntries b b := by simp
  -- the object accepted the epoch of the call
  have hepoch : ∀ {s i e o}, b.checkIo (dataOid u s i) e = .ok o → objectEpoch u b s i ≤ e := by
    intro s i e o hio
    obtain ⟨-, -, ho, hle⟩ := RAMBackend.checkIo_eq_ok.mp hio
    rw [objectEpoch_of_objectAt ho]
    exact hle
  cases hc with
  | openLog => exact absurd hx hself
  | uniqueId =>
    have hnil : newEntries b (b.uniqueId u.hoid).2 = [] := by
      unfold RAMBackend.uniqueId
      rw [if_neg u.hoid_ne_empty]
      exact newEntries_congr fun oid => rfl
    rw [show (b.exec (.uniqueId u.hoid)).2 = (b.uniqueId u.hoid).2 from rfl, hnil] at hx
    cases hx
  | readViews => exact absurd hx hself
  | proposeView hv hn =>
    have hnil := newEntries_congr (h.logAt_proposeView hv hn)
    rw [show (b.exec (.proposeView _ _ _)).2 = (b.proposeView _ _ _).2 from rfl, hnil] at hx
    cases hx
  | read => exact absurd hx hself
  | @write e p s i v last data hv hm =>
    change x ∈ newEntries b (b.write (dataOid u s i) data e p).2 at hx
    rcases b.write_cases (dataOid u s i) data e p with ⟨err, -, hw⟩ | ⟨o, -, -, hw⟩ |
      ⟨o, hio, hu, hw⟩ <;> rw [hw] at hx
    · exact absurd hx hself
    · exact absurd hx hself
    · obtain ⟨hoid, hmem, hno⟩ := mem_newEntries_setLog hx
      obtain ⟨-, -, ho, -⟩ := RAMBackend.checkIo_eq_ok.mp hio
      rw [LogObject.mem_entries_write hu] at hmem
      have hp : x.2 = p := hmem.resolve_right (hno o ho)
      exact ⟨s, i, e, v, last, by rw [hp]; rfl, hoid, hv, by rw [hp]; exact hm, hepoch hio⟩
  | @fill e p s i v last hv hm =>
    change x ∈ newEntries b (b.fill (dataOid u s i) e p).2 at hx
    rcases b.fill_cases (dataOid u s i) e p with ⟨err, -, hf⟩ | ⟨o, d, -, -, hf⟩ |
      ⟨o, hio, hs, hf⟩ | ⟨o, hio, hs, hf⟩ <;> rw [hf] at hx
    · exact absurd hx hself
    · exact absurd hx hself
    · obtain ⟨-, hmem, hno⟩ := mem_newEntries_setLog hx
      obtain ⟨-, -, ho, -⟩ := RAMBackend.checkIo_eq_ok.mp hio
      exact absurd hmem (hno o ho)
    · obtain ⟨hoid, hmem, hno⟩ := mem_newEntries_setLog hx
      obtain ⟨-, -, ho, -⟩ := RAMBackend.checkIo_eq_ok.mp hio
      rw [LogObject.mem_entries_fill hs] at hmem
      have hp : x.2 = p := hmem.resolve_right (hno o ho)
      exact ⟨s, i, e, v, last, by rw [hp]; rfl, hoid, hv, by rw [hp]; exact hm, hepoch hio⟩
  | @trim e p s i v last hv hm =>
    change x ∈ newEntries b (b.trim (dataOid u s i) e p false false).2 at hx
    rcases b.trim_cases (dataOid u s i) e p false false with ⟨-, -, ht⟩ | ⟨err, -, ht⟩ |
      ⟨o, hio, -, ht⟩ <;> rw [ht] at hx
    · exact absurd hx hself
    · exact absurd hx hself
    · obtain ⟨hoid, hmem, hno⟩ := mem_newEntries_setLog hx
      obtain ⟨-, -, ho, -⟩ := RAMBackend.checkIo_eq_ok.mp hio
      have hp : x.2 = p := by
        unfold LogObject.trim at hmem
        simp only [Bool.false_eq_true, if_false] at hmem
        split at hmem
        · exact absurd hmem (hno o ho)
        · exact ((LogObject.mem_entries_trimEntry o p x.2).mp hmem).resolve_right (hno o ho)
      exact ⟨s, i, e, v, last, by rw [hp]; rfl, hoid, hv, by rw [hp]; exact hm, hepoch hio⟩
  | trimRange =>
    rw [show (b.exec (.trim _ _ _ true _)).2 = (b.trim _ _ _ true _).2 from rfl,
      newEntries_trim_range] at hx
    cases hx
  | «seal» =>
    rw [show (b.exec (.seal _ _)).2 = (b.seal _ _).2 from rfl, newEntries_seal] at hx
    cases hx
  | maxPos => exact absurd hx hself

/-- A successful `Write` creates exactly its entry. -/
theorem newEntries_write {oid data : String} {e p : Nat}
    (h : (b.write oid data e p).1 = .ok ()) : newEntries b (b.write oid data e p).2 = [(oid, p)] := by
  rcases b.write_cases oid data e p with ⟨err, -, hw⟩ | ⟨o, -, -, hw⟩ | ⟨o, hio, hu, hw⟩
  · rw [hw] at h
    cases h
  · rw [hw] at h
    cases h
  · rw [hw]
    -- the object was there, and the position was free: it is the only new entry
    obtain ⟨-, -, ho, -⟩ := RAMBackend.checkIo_eq_ok.mp hio
    have hp : p ∉ o.entries := (LogObject.slot_eq_unwritten_iff.mp hu).2
    have hmem : ∀ x, x ∈ newEntries b (b.setLog oid
        (o.write (if b.blackhole then "" else data) p).2) ↔ x = (oid, p) := by
      intro x
      constructor
      · intro hx
        obtain ⟨hoid, hmem, hno⟩ := mem_newEntries_setLog hx
        rw [LogObject.mem_entries_write hu] at hmem
        exact Prod.ext hoid (hmem.resolve_right (hno o ho))
      · rintro rfl
        refine ZLog.mem_newEntries.mpr ⟨mem_entryKeys.mpr ⟨_, RAMBackend.logAt_setLog .., ?_⟩, ?_⟩
        · exact (LogObject.mem_entries_write hu _ _).mpr (Or.inl rfl)
        · intro hold
          obtain ⟨o', ho', hp'⟩ := mem_entryKeys.mp hold
          rw [ho] at ho'
          cases ho'
          exact hp hp'
    have hnodup : (newEntries b (b.setLog oid
        (o.write (if b.blackhole then "" else data) p).2)).Nodup := (nodup_entryKeys _).filter _
    -- both lists have no duplicates, so the same members make the same list
    exact List.perm_singleton.mp ((List.perm_ext_iff_of_nodup hnodup (List.nodup_singleton _)).mpr
      fun x => by rw [hmem, List.mem_singleton])

/-! ## Frames -/

/-- The position keeps its state and its entry in every object. -/
structure Untouched (b b' : Store) (q : Nat) : Prop where
  slot : ∀ oid, b'.slotAt oid q = b.slotAt oid q
  entry : ∀ oid, entryAt b' oid q = entryAt b oid q

/-- Nothing has changed. -/
theorem Untouched.refl (b : Store) (q : Nat) : Untouched b b q := ⟨fun _ => rfl, fun _ => rfl⟩

/-- No object changes its content. -/
def SameContent (b b' : Store) : Prop := ∀ q, Untouched b b' q

/-- Nothing has changed at any position. -/
theorem SameContent.refl (b : Store) : SameContent b b := Untouched.refl b

/-- With the same content there is no new entry. -/
theorem SameContent.newEntries (h : SameContent b b') : newEntries b b' = [] := by
  refine newEntries_eq_nil fun x hx => ?_
  obtain ⟨hnew, hold⟩ := ZLog.mem_newEntries.mp hx
  obtain ⟨o', ho', hp⟩ := mem_entryKeys.mp hnew
  have hentry := (h x.2).entry x.1
  unfold entryAt at hentry
  rw [ho'] at hentry
  refine hold (mem_entryKeys.mpr ?_)
  cases ho : b.logAt x.1 with
  | none =>
    rw [ho] at hentry
    exact absurd hp (AList.lookup_eq_none.mp hentry)
  | some o =>
    rw [ho] at hentry
    refine ⟨o, rfl, ?_⟩
    by_contra hno
    exact absurd hp (AList.lookup_eq_none.mp (hentry.trans (AList.lookup_eq_none.mpr hno)))

/-- A change outside the log objects touches no position. -/
theorem untouched_congr (h : ∀ oid, b'.logAt oid = b.logAt oid) (q : Nat) : Untouched b b' q := by
  refine ⟨fun oid => ?_, fun oid => ?_⟩
  · unfold RAMBackend.slotAt
    rw [h]
  · unfold entryAt
    rw [h]

/-- Replacing one object touches `q` only if the object's own `q` changes. -/
theorem untouched_setLog {oid : String} {o' : LogObject} {q : Nat}
    (hslot : o'.slot q = b.slotAt oid q) (hentry : o'.entries.lookup q = entryAt b oid q) :
    Untouched b (b.setLog oid o') q := by
  refine ⟨fun oid' => ?_, fun oid' => ?_⟩
  · by_cases heq : oid' = oid
    · rw [heq, RAMBackend.slotAt_of_logAt (RAMBackend.logAt_setLog ..), hslot]
    · unfold RAMBackend.slotAt
      rw [RAMBackend.logAt_setLog_ne b _ heq]
  · by_cases heq : oid' = oid
    · rw [heq, ← hentry]
      unfold entryAt
      rw [RAMBackend.logAt_setLog]
    · unfold entryAt
      rw [RAMBackend.logAt_setLog_ne b _ heq]

/-- As above, for an object that passed the check of an I/O call. -/
theorem untouched_setLog_of_io {oid : String} {e q : Nat} {o o' : LogObject}
    (hio : b.checkIo oid e = .ok o) (hslot : o'.slot q = o.slot q)
    (hentry : o'.entries.lookup q = o.entries.lookup q) : Untouched b (b.setLog oid o') q := by
  obtain ⟨-, -, ho, -⟩ := RAMBackend.checkIo_eq_ok.mp hio
  refine untouched_setLog ?_ ?_
  · rw [RAMBackend.slotAt_of_logAt ho, hslot]
  · unfold entryAt
    rw [ho, hentry]

/-- `Write` touches its position only. -/
theorem untouched_write (b : Store) (oid data : String) {e p q : Nat} (hq : q ≠ p) :
    Untouched b (b.write oid data e p).2 q := by
  rcases b.write_cases oid data e p with ⟨err, -, hw⟩ | ⟨o, -, -, hw⟩ | ⟨o, hio, hu, hw⟩ <;> rw [hw]
  · exact .refl b q
  · exact .refl b q
  · refine untouched_setLog_of_io hio ?_ ?_
    · rw [LogObject.slot_write hu, if_neg hq]
    · rw [LogObject.write_of_unwritten hu]
      exact AList.lookup_insert_ne hq

/-- `Fill` touches its position only. -/
theorem untouched_fill (b : Store) (oid : String) {e p q : Nat} (hq : q ≠ p) :
    Untouched b (b.fill oid e p).2 q := by
  rcases b.fill_cases oid e p with ⟨err, -, hf⟩ | ⟨o, d, -, -, hf⟩ | ⟨o, hio, hs, hf⟩ |
    ⟨o, hio, hs, hf⟩ <;> rw [hf]
  · exact .refl b q
  · exact .refl b q
  · exact untouched_setLog_of_io hio rfl rfl
  · refine untouched_setLog_of_io hio ?_ ?_
    · rw [LogObject.slot_fill hs, if_neg hq]
    · rw [LogObject.fill_of_unwritten hs]
      exact AList.lookup_insert_ne hq

/-- Trimming one position leaves the others. -/
theorem LogObject.lookup_trimEntry_ne (o : LogObject) {p q : Nat} (h : q ≠ p) :
    (o.trimEntry p).entries.lookup q = o.entries.lookup q := by
  unfold LogObject.trimEntry
  split
  · exact AList.lookup_insert_ne h
  · exact AList.lookup_insert_ne h

/-- A trim that deletes entries only up to its position. -/
theorem untouched_trim (b : Store) (oid : String) {e p q : Nat} {l f : Bool}
    (hq : ¬ LogObject.TrimCovers p l q)
    (hfull : f = true → ∀ o, b.logAt oid = some o → ∀ k ∈ o.entries, k ≤ p) :
    Untouched b (b.trim oid e p l f).2 q := by
  rcases b.trim_cases oid e p l f with ⟨-, -, ht⟩ | ⟨err, -, ht⟩ | ⟨o, hio, hlf, ht⟩ <;> rw [ht]
  · exact .refl b q
  · exact .refl b q
  · obtain ⟨-, -, ho, -⟩ := RAMBackend.checkIo_eq_ok.mp hio
    refine untouched_setLog_of_io hio ?_ ?_
    · rw [LogObject.slot_trim hlf (fun hf => hfull hf o ho), if_neg hq]
    · cases l with
      | false =>
        have hf : f = false := by
          cases f with
          | false => rfl
          | true => exact absurd (hlf rfl) (by simp)
        subst hf
        unfold LogObject.trim
        simp only [LogObject.TrimCovers, Bool.false_eq_true, if_false] at hq ⊢
        split
        · rfl
        · exact LogObject.lookup_trimEntry_ne o hq
      | true =>
        cases f with
        | false => rw [LogObject.trim_range, LogObject.entries_raiseTrimLimit]
        | true =>
          -- entries after the position do not exist before either
          have hnone : o.entries.lookup q = none := by
            rw [AList.lookup_eq_none]
            exact fun hmem => hq (by simpa [LogObject.TrimCovers] using hfull rfl o ho q hmem)
          rw [hnone]
          rfl

/-- `Seal` touches no position: it creates an object without entries, or sets its epoch. -/
theorem untouched_seal (b : Store) (oid : String) (e q : Nat) :
    Untouched b (b.seal oid e).2 q := by
  rcases b.seal_cases oid e with ⟨-, hs⟩ | ⟨-, -, hn, hs⟩ | ⟨o, -, -, hs⟩ | ⟨o, ho, -, -, hs⟩ |
    ⟨-, -, hs⟩ <;> rw [hs]
  · exact .refl b q
  · -- a new object has nothing at `q`, and the missing one had nothing either
    have hnone : b.logAt oid = none := by simp [RAMBackend.logAt, hn]
    refine untouched_setLog ?_ ?_
    · unfold RAMBackend.slotAt
      rw [hnone]
      rfl
    · unfold entryAt
      rw [hnone]
      rfl
  · exact .refl b q
  · -- an object that is there keeps its entries
    refine untouched_setLog ?_ ?_
    · rw [RAMBackend.slotAt_of_logAt ho]
      exact LogObject.slot_setEpoch o e q
    · unfold entryAt
      rw [ho]
  · exact .refl b q

/-- An object that a trim may empty holds no entries after the position. -/
theorem LogOk.entries_le_of_full (h : LogOk u name b) {e p : Nat} {v : View} {stripe : Stripe}
    {full : Bool} (hv : ViewAt (viewsOf u b) e v) (hs : v.objectMap.stripeById s = .ok stripe)
    (hmem : (Stripe.oidAt s i, full) ∈ ObjectMap.mapToObjects stripe p) (hf : full = true)
    {o : LogObject} (ho : objectAt u b s i = some o) : ∀ k ∈ o.entries, k ≤ p := by
  intro k hk
  obtain ⟨L, hL⟩ := h.history.layout
  obtain ⟨-, hid, hw, hlo, hhi⟩ := (hL v hv.mem).stripeById_ok hs
  obtain ⟨j, -, hj, hcover⟩ := ObjectMap.mem_mapToObjects hid hw hlo hhi hmem
  obtain ⟨-, rfl⟩ := oidAt_injective hj
  obtain ⟨hk₁, hk₂⟩ := ((h.object s i o ho).mapped k hk).layout hL
  exact hcover hf k hk₁.symm hk₂.symm

/-- **Frame**: a call leaves the positions it does not touch alone, in every object. -/
theorem CallOk.untouched (h : LogOk u name b) {α : Type} {c : Call Fbs.View α}
    (hc : CallOk u name b c) {q : Nat} (hq : ¬ c.Touches q) : Untouched b (b.exec c).2 q := by
  cases hc with
  | openLog => exact .refl b q
  | uniqueId =>
    show Untouched b (b.uniqueId u.hoid).2 q
    unfold RAMBackend.uniqueId
    rw [if_neg u.hoid_ne_empty]
    refine untouched_congr ?_ q
    intro oid
    rfl
  | readViews => exact .refl b q
  | proposeView hv hn => exact untouched_congr (h.logAt_proposeView hv hn) q
  | read => exact .refl b q
  | write data hv hm => exact untouched_write b _ data hq
  | fill hv hm => exact untouched_fill b _ hq
  | trim hv hm => exact untouched_trim b _ hq (fun hf => absurd hf (by simp))
  -- a full range trim covers every entry of its object, so the ones it removes were touched
  | @trimRange e p s i v stripe full hv hs hmin hmem =>
    exact untouched_trim b _ hq fun hf o ho => h.entries_le_of_full hv hs hmem hf ho
  | «seal» => exact untouched_seal b _ _ q
  | maxPos => exact .refl b q

/-- An object holds nothing at its positions that are not mapped yet. -/
theorem LogOk.slotAt_of_unmapped (h : LogOk u name b) {L : Layout} {q s i : Nat}
    (hL : ∀ v ∈ viewsOf u b, v.objectMap.HasLayout L v.objectMap.nextStripeId)
    (hsize : L.size < 2 ^ 32) (hs : s = q / L.size) (hi : i = q % L.width)
    (hm : ¬ Mapped (viewsOf u b) q s i) : b.slotAt (dataOid u s i) q = .unwritten := by
  cases ho : b.logAt (dataOid u s i) with
  | none =>
    unfold RAMBackend.slotAt
    rw [ho]
  | some o =>
    have hobj := h.object s i o ho
    rw [RAMBackend.slotAt_of_logAt ho, LogObject.slot_eq_unwritten_iff]
    refine ⟨?_, fun hmem => hm (hobj.mapped q hmem)⟩
    unfold LogObject.belowTrimLimit
    cases hl : o.trimLimit with
    | none => rfl
    | some l =>
      -- a limit means that the whole stripe is mapped
      exfalso
      obtain ⟨v, hv, stripe, hst, -⟩ := hobj.limit l hl
      have hlt := ((hL v hv).stripeById_ok hst).1
      have hq : q < v.objectMap.nextStripeId * L.size := by
        rw [hs] at hlt
        exact (Nat.div_lt_iff_lt_mul L.size_pos).mp hlt
      rcases (hL v hv).map_cases q with ⟨hge, -⟩ | ⟨-, heq, -⟩ | ⟨-, -, hmap⟩
      · omega
      · omega
      · rw [hs, hi] at hm
        exact hm ⟨v, hv, _, hmap⟩

/-- Nothing comes before `unwritten`. -/
theorem Slot.Le.eq_unwritten {s : Slot} (h : Slot.Le s .unwritten) : s = .unwritten := by
  cases h
  rfl

/-- A position that no object changes keeps its state, also when it becomes mapped. -/
theorem Kept.positionSlot_eq (hk : Kept u name b b') (h : LogOk u name b) {q : Nat}
    (hslot : ∀ oid, b'.slotAt oid q = b.slotAt oid q) :
    positionSlot u b' q = positionSlot u b q := by
  -- `q` is not mapped after the step, or at some object
  rcases hk.ok.positionSlot_cases q with hu | ⟨s, i, hm', heq'⟩
  · rw [hu]
    have hle := hk.grows.positionSlot_le h hk.ok q
    rw [hu] at hle
    exact hle.eq_unwritten.symm
  · -- mapped before as well: the same object decides
    by_cases hm : Mapped (viewsOf u b) q s i
    · rw [heq', hslot, h.positionSlot_eq hm]
    · obtain ⟨L, hL⟩ := hk.ok.history.layout
      obtain ⟨v, hv, last, hmap⟩ := hm'
      -- mapped by a new view only: its object has nothing at `q` before the step
      obtain ⟨-, hsize, hoid, -⟩ := (hL v hv).map_some hmap
      obtain ⟨hs, hi⟩ := oidAt_injective hoid
      have hold := h.slotAt_of_unmapped (fun w hw => hL w (hk.grows.views.subset hw)) hsize hs hi hm
      rw [heq', hslot, hold]
      rcases h.positionSlot_cases q with hu | ⟨s', i', hm'', -⟩
      · exact hu.symm
      · obtain ⟨rfl, rfl⟩ := (hm''.mono hk.grows.views).unique hk.ok.history ⟨v, hv, last, hmap⟩
        exact absurd hm'' hm

/-- A call leaves the state of the positions it does not touch alone. -/
theorem CallOk.positionSlot_frame (h : LogOk u name b) {α : Type} {c : Call Fbs.View α}
    (hc : CallOk u name b c) {q : Nat} (hq : ¬ c.Touches q) :
    positionSlot u (b.exec c).2 q = positionSlot u b q :=
  (CallOk.exec h hc).positionSlot_eq h (hc.untouched h hq).slot

/-- Only a trim takes data away. -/
theorem CallOk.written_stays (h : LogOk u name b) {α : Type} {c : Call Fbs.View α}
    (hc : CallOk u name b c) {q : Nat} {d : String} (hq : ¬ c.Trims q)
    (hd : positionSlot u b q = .written d) : positionSlot u (b.exec c).2 q = .written d := by
  by_cases ht : c.Touches q
  · -- a write or a fill of the position itself fails
    have hslot : ∀ {e s i v last}, ViewAt (viewsOf u b) e v →
        v.objectMap.map q = .ok (some (Stripe.oidAt s i), last) → ∀ o,
        b.logAt (dataOid u s i) = some o → o.slot q = .written d := by
      intro e s i v last hv hm o ho
      rw [h.positionSlot_eq (mapped_of_map hv hm), RAMBackend.slotAt_of_logAt ho] at hd
      exact hd
    cases hc with
    | @write e p s i v last data hv hm =>
      have hqp : q = p := ht
      subst hqp
      have hnoop : (b.exec (.write (dataOid u s i) data e q)).2 = b := by
        show (b.write (dataOid u s i) data e q).2 = b
        rcases b.write_cases (dataOid u s i) data e q with ⟨err, -, hw⟩ | ⟨o, -, -, hw⟩ |
          ⟨o, hio, hu, hw⟩
        · rw [hw]
        · rw [hw]
        · obtain ⟨-, -, ho, -⟩ := RAMBackend.checkIo_eq_ok.mp hio
          rw [hslot hv hm o ho] at hu
          cases hu
      rw [hnoop]
      exact hd
    | @fill e p s i v last hv hm =>
      have hqp : q = p := ht
      subst hqp
      have hnoop : (b.exec (.fill (dataOid u s i) e q)).2 = b := by
        show (b.fill (dataOid u s i) e q).2 = b
        rcases b.fill_cases (dataOid u s i) e q with ⟨err, -, hf⟩ | ⟨o, d', -, -, hf⟩ |
          ⟨o, hio, hs, hf⟩ | ⟨o, hio, hs, hf⟩
        · rw [hf]
        · rw [hf]
        · obtain ⟨-, -, ho, -⟩ := RAMBackend.checkIo_eq_ok.mp hio
          rw [hslot hv hm o ho] at hs
          cases hs
        · obtain ⟨-, -, ho, -⟩ := RAMBackend.checkIo_eq_ok.mp hio
          rw [hslot hv hm o ho] at hs
          cases hs
      rw [hnoop]
      exact hd
    | trim => exact absurd ht hq
    | trimRange => exact absurd ht hq
    | _ => exact ht.elim
  · rw [hc.positionSlot_frame h ht]
    exact hd

end

end ZLog
