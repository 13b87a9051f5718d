import ZLog.System.LogState

/-!
# The calls clients make

`CallOk` lists the backend calls that occur in a run, with what the calling thread knows when
it makes them: the epoch it uses is that of a stored view, the object is the one the view gives
the position, a proposed view is built from the stored view of the epoch before.

## Main results

- `CallOk.exec`: such a call keeps the invariant of the stored log, and the log grows.
-/

namespace ZLog

/-- A sequencer seed for epoch `e + 1` was computed from the view `v` of epoch `e`: either that
    epoch is taken already, or every position from `top` on is sealed and unwritten, where the seed
    is `top` in 64 bits. -/
def SeedOk (u : Uuid) (b : Store) (e : Nat) (v : View) (seed : Nat) : Prop :=
  e < latestEpoch u b ∨ ∃ top, seed = top % 2 ^ 64 ∧ TopAt u b e top ∧
    SeedSealed u b (e + 1) v top ∧ ∀ p, top ≤ p → positionSlot u b p = .unwritten

/-- The calls of the clients of the log. -/
inductive CallOk (u : Uuid) (name : String) (b : Store) : {α : Type} → Call Fbs.View α → Prop where
  | openLog : CallOk u name b (.openLog name)
  | uniqueId : CallOk u name b (.uniqueId u.hoid)
  | readViews (epoch maxViews : Nat) : CallOk u name b (.readViews u.hoid epoch maxViews)
  | proposeView {e : Nat} {v v' : View} : ViewAt (viewsOf u b) e v → NextView e v v' →
      CallOk u name b (.proposeView u.hoid (e + 1) v'.encode)
  | read {e p s i : Nat} {v : View} {last : Bool} : ViewAt (viewsOf u b) e v →
      v.objectMap.map p = .ok (some (Stripe.oidAt s i), last) →
      CallOk u name b (.read (dataOid u s i) e p)
  | write {e p s i : Nat} {v : View} {last : Bool} (data : String) : ViewAt (viewsOf u b) e v →
      v.objectMap.map p = .ok (some (Stripe.oidAt s i), last) →
      CallOk u name b (.write (dataOid u s i) data e p)
  | fill {e p s i : Nat} {v : View} {last : Bool} : ViewAt (viewsOf u b) e v →
      v.objectMap.map p = .ok (some (Stripe.oidAt s i), last) →
      CallOk u name b (.fill (dataOid u s i) e p)
  | trim {e p s i : Nat} {v : View} {last : Bool} : ViewAt (viewsOf u b) e v →
      v.objectMap.map p = .ok (some (Stripe.oidAt s i), last) →
      CallOk u name b (.trim (dataOid u s i) e p false false)
  | trimRange {e p s i : Nat} {v : View} {stripe : Stripe} {full : Bool} :
      ViewAt (viewsOf u b) e v → v.objectMap.stripeById s = .ok stripe → stripe.minPosition ≤ p →
      (Stripe.oidAt s i, full) ∈ ObjectMap.mapToObjects stripe p →
      CallOk u name b (.trim (dataOid u s i) e p true full)
  | seal (s i : Nat) {e : Nat} : 0 < e → e ≤ latestEpoch u b + 1 →
      CallOk u name b (.seal (dataOid u s i) e)
  | maxPos (s i : Nat) : CallOk u name b (.maxPos (dataOid u s i))

section

variable {u : Uuid} {name : String} {b b' : Store} {s i : Nat}

/-! ## Storing an object -/

/-- Data objects do not hold views. -/
theorem viewsOf_setLog (b : Store) (s i : Nat) (o : LogObject) :
    viewsOf u (b.setLog (dataOid u s i) o) = viewsOf u b := by
  unfold viewsOf
  rw [RAMBackend.lookup_setLog, if_neg (dataOid_ne_hoid u s i).symm]

/-- The objects after one was stored. -/
theorem objectAt_setLog (b : Store) (s i s' i' : Nat) (o : LogObject) :
    objectAt u (b.setLog (dataOid u s i) o) s' i' =
      if s' = s ∧ i' = i then some o else objectAt u b s' i' := by
  unfold objectAt
  by_cases h : s' = s ∧ i' = i
  · rw [if_pos h, h.1, h.2, RAMBackend.logAt_setLog]
  · -- different stripes or instances have different names
    rw [if_neg h, RAMBackend.logAt_setLog_ne]
    exact fun heq => h (dataOid_injective heq)

theorem objectEpoch_setLog (b : Store) (s i s' i' : Nat) (o : LogObject) :
    objectEpoch u (b.setLog (dataOid u s i) o) s' i' =
      if s' = s ∧ i' = i then o.epoch else objectEpoch u b s' i' := by
  unfold objectEpoch
  by_cases h : s' = s ∧ i' = i
  · rw [if_pos h, h.1, h.2]
    exact RAMBackend.epochAt_of_logAt (RAMBackend.logAt_setLog ..)
  · unfold RAMBackend.epochAt
    rw [if_neg h, RAMBackend.logAt_setLog_ne]
    exact fun heq => h (dataOid_injective heq)

/-- An object that fits the stored views may be stored. -/
theorem LogOk.setLog (h : LogOk u name b) {o : LogObject} (ho : ObjectOk (viewsOf u b) s i o) :
    LogOk u name (b.setLog (dataOid u s i) o) := by
  have hviews : viewsOf u (b.setLog (dataOid u s i) o) = viewsOf u b := viewsOf_setLog b s i o
  refine ⟨h.stores, ⟨?_, ?_⟩, ?_, ?_, ?_⟩
  · obtain ⟨proj, blobs, hl, hrest⟩ := h.head.head
    rw [hviews]
    refine ⟨proj, blobs, ?_, hrest⟩
    rw [RAMBackend.lookup_setLog, if_neg (dataOid_ne_hoid u s i).symm]
    exact hl
  · refine ⟨h.head.link.1, ?_⟩
    rw [RAMBackend.lookup_setLog, if_neg (dataOid_ne_link u s i name).symm]
    exact h.head.link.2
  · rw [hviews]
    exact h.history
  · intro s' i'
    rw [RAMBackend.lookup_setLog]
    split
    · exact Or.inr ⟨o, rfl⟩
    · exact h.kinds s' i'
  · intro s' i' o' ho'
    rw [hviews]
    rw [objectAt_setLog] at ho'
    split at ho'
    · next heq =>
      cases ho'
      rw [heq.1, heq.2]
      exact ho
    · exact h.object s' i' o' ho'

/-- How an object may be replaced. -/
structure Replaces (u : Uuid) (b : Store) (s i : Nat) (o : LogObject) : Prop where
  epoch : objectEpoch u b s i ≤ o.epoch
  slot : ∀ p, Slot.Le (b.slotAt (dataOid u s i) p) (o.slot p)
  limit : ∀ o' p, objectAt u b s i = some o' → o'.belowTrimLimit p = true →
    o.belowTrimLimit p = true
  frozen : ∀ o', objectAt u b s i = some o' → latestEpoch u b < o'.epoch →
    o.entries = o'.entries ∧ o.trimLimit = o'.trimLimit ∧ o.maxpos = o'.maxpos

/-- The log grows when an object grows. -/
theorem Replaces.grows {o : LogObject} (h : Replaces u b s i o) :
    Grows u b (b.setLog (dataOid u s i) o) := by
  have hviews : viewsOf u (b.setLog (dataOid u s i) o) = viewsOf u b := viewsOf_setLog b s i o
  have hsame : ∀ s' i', ¬(s' = s ∧ i' = i) →
      (b.setLog (dataOid u s i) o).logAt (dataOid u s' i') = b.logAt (dataOid u s' i') := by
    intro s' i' hne
    exact RAMBackend.logAt_setLog_ne b o (fun heq => hne (dataOid_injective heq))
  refine ⟨by rw [hviews], ?_, ?_, ?_, ?_⟩
  · intro s' i'
    rw [objectEpoch_setLog]
    split
    · next heq =>
      rw [heq.1, heq.2]
      exact h.epoch
    · exact le_refl _
  · intro s' i' p
    by_cases heq : s' = s ∧ i' = i
    · rw [heq.1, heq.2, RAMBackend.slotAt_of_logAt (RAMBackend.logAt_setLog ..)]
      exact h.slot p
    · unfold RAMBackend.slotAt
      rw [hsame s' i' heq]
      exact .refl _
  · intro s' i' o' p ho' hb
    rw [objectAt_setLog]
    by_cases heq : s' = s ∧ i' = i
    · rw [heq.1, heq.2] at ho'
      exact ⟨o, by rw [if_pos heq], h.limit o' p ho' hb⟩
    · exact ⟨o', by rw [if_neg heq]; exact ho', hb⟩
  · intro s' i' o' ho' hlt
    unfold latestEpoch at hlt
    rw [hviews] at hlt
    rw [objectAt_setLog]
    by_cases heq : s' = s ∧ i' = i
    · rw [heq.1, heq.2] at ho'
      exact ⟨o, by rw [if_pos heq], h.frozen o' ho' hlt⟩
    · exact ⟨o', by rw [if_neg heq]; exact ho', rfl, rfl, rfl⟩

/-- Replacing an object in place, by a caller whose epoch was checked. -/
theorem Replaces.of_io {o o' : LogObject} {e : Nat} (ho : objectAt u b s i = some o)
    (he : o.epoch ≤ e) (hle : e ≤ latestEpoch u b) (hepoch : o'.epoch = o.epoch)
    (hslot : ∀ p, Slot.Le (o.slot p) (o'.slot p))
    (hlimit : ∀ p, o.belowTrimLimit p = true → o'.belowTrimLimit p = true) :
    Replaces u b s i o' := by
  refine ⟨?_, ?_, ?_, ?_⟩
  · rw [objectEpoch_of_objectAt ho, hepoch]
  · intro p
    rw [RAMBackend.slotAt_of_logAt ho]
    exact hslot p
  · intro x p hx hb
    rw [ho] at hx
    cases hx
    exact hlimit p hb
  · intro x hx hlt
    rw [ho] at hx
    cases hx
    -- an object that was sealed for the next view would have refused the caller
    omega

/-- The result of a call: the invariant is kept and the log grows. -/
structure Kept (u : Uuid) (name : String) (b b' : Store) : Prop where
  ok : LogOk u name b'
  grows : Grows u b b'

/-- A call that changes nothing. -/
theorem LogOk.kept_refl (h : LogOk u name b) : Kept u name b b := ⟨h, .refl u b⟩

/-- A call that replaces one object. -/
theorem LogOk.kept_setLog (h : LogOk u name b) {o : LogObject}
    (ho : ObjectOk (viewsOf u b) s i o) (hr : Replaces u b s i o) :
    Kept u name b (b.setLog (dataOid u s i) o) :=
  ⟨h.setLog ho, hr.grows⟩

/-! ## Entry calls -/

/-- A stored view maps the position to the object. -/
theorem mapped_of_map {vs : List View} {e p s i : Nat} {v : View} {last : Bool}
    (hv : ViewAt vs e v) (hm : v.objectMap.map p = .ok (some (Stripe.oidAt s i), last)) :
    Mapped vs p s i := ⟨v, hv.mem, last, hm⟩

/-- Adding an entry at a position that maps to the object. -/
theorem ObjectOk.insert {vs : List View} {o : LogObject} (h : ObjectOk vs s i o) {p : Nat}
    (hp : Mapped vs p s i) (entry : LogEntry) :
    ObjectOk vs s i { o with entries := o.entries.insert p entry, maxpos := max o.maxpos p } := by
  refine ⟨h.epoch_pos, h.epoch_le, ?_, ?_, h.limit⟩
  · intro q hq
    rcases (AList.mem_insert _).mp hq with rfl | hq
    · exact hp
    · exact h.mapped q hq
  · intro q hq
    rcases (AList.mem_insert _).mp hq with rfl | hq
    · exact le_max_right _ _
    · exact le_trans (h.bounded q hq) (le_max_left _ _)

/-- A write adds an entry where its view maps the position, if the epoch is not stale. -/
theorem kept_write (h : LogOk u name b) {e p : Nat} {v : View} {last : Bool}
    (hv : ViewAt (viewsOf u b) e v)
    (hm : v.objectMap.map p = .ok (some (Stripe.oidAt s i), last)) (data : String) :
    Kept u name b (b.write (dataOid u s i) data e p).2 := by
  rcases b.write_cases (dataOid u s i) data e p with ⟨err, -, hw⟩ | ⟨o, -, -, hw⟩ |
    ⟨o, hio, hu, hw⟩ <;> rw [hw]
  · exact h.kept_refl
  · exact h.kept_refl
  · -- the write was accepted: the slot of its position was empty
    obtain ⟨-, -, ho, he⟩ := RAMBackend.checkIo_eq_ok.mp hio
    have hobj := h.object s i o ho
    refine h.kept_setLog ?_ ?_
    · rw [LogObject.write_of_unwritten hu]
      exact hobj.insert (mapped_of_map hv hm) _
    · refine Replaces.of_io ho he hv.le_length (LogObject.epoch_write ..) ?_ ?_
      · intro q
        rw [LogObject.slot_write hu]
        split
        · next hq =>
          rw [hq, hu]
          exact .write _
        · exact .refl _
      · intro q hb
        rw [LogObject.write_of_unwritten hu]
        exact hb

/-- A fill does the same with the junk entry. -/
theorem kept_fill (h : LogOk u name b) {e p : Nat} {v : View} {last : Bool}
    (hv : ViewAt (viewsOf u b) e v)
    (hm : v.objectMap.map p = .ok (some (Stripe.oidAt s i), last)) :
    Kept u name b (b.fill (dataOid u s i) e p).2 := by
  rcases b.fill_cases (dataOid u s i) e p with ⟨err, -, hf⟩ | ⟨o, d, -, -, hf⟩ | ⟨o, hio, hs, hf⟩ |
    ⟨o, hio, hs, hf⟩ <;> rw [hf]
  · exact h.kept_refl
  · exact h.kept_refl
  · -- invalid already: the object is stored as it was
    obtain ⟨-, -, ho, he⟩ := RAMBackend.checkIo_eq_ok.mp hio
    refine h.kept_setLog (h.object s i o ho) ?_
    exact Replaces.of_io ho he hv.le_length rfl (fun q => .refl _) (fun q hb => hb)
  · -- the position becomes invalid
    obtain ⟨-, -, ho, he⟩ := RAMBackend.checkIo_eq_ok.mp hio
    have hobj := h.object s i o ho
    refine h.kept_setLog ?_ ?_
    · rw [LogObject.fill_of_unwritten hs]
      exact hobj.insert (mapped_of_map hv hm) _
    · refine Replaces.of_io ho he hv.le_length (LogObject.epoch_fill ..) ?_ ?_
      · intro q
        rw [LogObject.slot_fill hs]
        split
        · exact .to_invalid _
        · exact .refl _
      · intro q hb
        rw [LogObject.fill_of_unwritten hs]
        exact hb

/-- A trim of checked flags, given what it does to the object. -/
theorem kept_trim (h : LogOk u name b) {e p : Nat} {l f : Bool} (he : e ≤ latestEpoch u b)
    (hobj : ∀ o, objectAt u b s i = some o → ObjectOk (viewsOf u b) s i (o.trim p l f))
    (hfull : f = true → ∀ o, objectAt u b s i = some o → ∀ q ∈ o.entries, q ≤ p) :
    Kept u name b (b.trim (dataOid u s i) e p l f).2 := by
  rcases b.trim_cases (dataOid u s i) e p l f with ⟨-, -, ht⟩ | ⟨err, -, ht⟩ | ⟨o, hio, hlf, ht⟩ <;>
    rw [ht]
  · exact h.kept_refl
  · exact h.kept_refl
  · -- the trim was accepted: covered slots become invalid, limits stay
    obtain ⟨-, -, ho, hle⟩ := RAMBackend.checkIo_eq_ok.mp hio
    refine h.kept_setLog (hobj o ho) ?_
    refine Replaces.of_io ho hle he (LogObject.epoch_trim ..) ?_ ?_
    · intro q
      rw [LogObject.slot_trim hlf (fun hf => hfull hf o ho)]
      split
      · exact .to_invalid _
      · exact .refl _
    · intro q hb
      exact LogObject.belowTrimLimit_trim hb

/-- A trim of one position may add an entry where the view maps it. -/
theorem kept_trim_single (h : LogOk u name b) {e p : Nat} {v : View} {last : Bool}
    (hv : ViewAt (viewsOf u b) e v)
    (hm : v.objectMap.map p = .ok (some (Stripe.oidAt s i), last)) :
    Kept u name b (b.trim (dataOid u s i) e p false false).2 := by
  refine kept_trim h hv.le_length ?_ (fun hf => absurd hf (by simp))
  intro o ho
  have hobj := h.object s i o ho
  unfold LogObject.trim
  simp only [Bool.false_eq_true, if_false]
  split
  · exact hobj
  · unfold LogObject.trimEntry
    split
    · exact hobj.insert (mapped_of_map hv hm) _
    · exact hobj.insert (mapped_of_map hv hm) _

/-- A trim up to a limit; the full one deletes the entries of an object that lies below the limit.
    -/
theorem kept_trim_range (h : LogOk u name b) {e p : Nat} {v : View} {stripe : Stripe} {full : Bool}
    (hv : ViewAt (viewsOf u b) e v) (hs : v.objectMap.stripeById s = .ok stripe)
    (hmin : stripe.minPosition ≤ p)
    (hmem : (Stripe.oidAt s i, full) ∈ ObjectMap.mapToObjects stripe p) :
    Kept u name b (b.trim (dataOid u s i) e p true full).2 := by
  obtain ⟨L, hL⟩ := h.history.layout
  obtain ⟨-, hid, hw, hlo, hhi⟩ := (hL v hv.mem).stripeById_ok hs
  obtain ⟨j, -, hj, hcover⟩ := ObjectMap.mem_mapToObjects hid hw hlo hhi hmem
  obtain ⟨-, rfl⟩ := oidAt_injective hj
  refine kept_trim h hv.le_length ?_ ?_
  · intro o ho
    have hobj := h.object s i o ho
    have hlimit : ∀ x, (o.raiseTrimLimit p).trimLimit = some x →
        ∃ v ∈ viewsOf u b, ∃ st, v.objectMap.stripeById s = .ok st ∧ st.minPosition ≤ x := by
      intro x hx
      refine ⟨v, hv.mem, stripe, hs, le_trans hmin ?_⟩
      have hbelow := LogObject.belowTrimLimit_raiseTrimLimit o p p
      simp only [le_refl, decide_true, Bool.true_or] at hbelow
      unfold LogObject.belowTrimLimit at hbelow
      rw [hx] at hbelow
      simpa using hbelow
    cases full with
    -- the limit rises, the entries stay
    | false =>
      rw [LogObject.trim_range]
      refine ⟨by simpa using hobj.epoch_pos, by simpa using hobj.epoch_le, ?_, ?_, hlimit⟩
      · simpa using hobj.mapped
      · simpa using hobj.bounded
    -- the entries are gone as well
    | true =>
      unfold LogObject.trim
      simp only [if_true]
      refine ⟨by simpa using hobj.epoch_pos, by simpa using hobj.epoch_le, ?_, ?_, hlimit⟩
      · intro q hq
        exact absurd hq (AList.notMem_empty q)
      · intro q hq
        exact absurd hq (AList.notMem_empty q)
  · -- a full trim is sent only to objects whose positions all lie below the limit
    intro hf o ho q hq
    have hmap := (h.object s i o ho).mapped q hq
    obtain ⟨hq₁, hq₂⟩ := hmap.layout hL
    exact hcover hf q hq₁.symm hq₂.symm

/-- A seal raises the epoch of an object by at most one over the latest view, or creates it. -/
theorem kept_seal (h : LogOk u name b) {e : Nat} (h0 : 0 < e) (he : e ≤ latestEpoch u b + 1) :
    Kept u name b (b.seal (dataOid u s i) e).2 := by
  rcases b.seal_cases (dataOid u s i) e with ⟨-, hs⟩ | ⟨-, -, hn, hs⟩ | ⟨o, -, -, hs⟩ |
    ⟨o, ho, hlt, -, hs⟩ | ⟨-, -, hs⟩ <;> rw [hs]
  · exact h.kept_refl
  · -- the object is created, empty
    have hnone : objectAt u b s i = none := by simp [objectAt, RAMBackend.logAt, hn]
    refine h.kept_setLog ⟨h0, he, ?_, ?_, ?_⟩ ⟨?_, ?_, ?_, ?_⟩
    · exact fun q hq => absurd hq (AList.notMem_empty q)
    · exact fun q hq => absurd hq (AList.notMem_empty q)
    · exact fun l hl => by cases hl
    · unfold objectEpoch RAMBackend.epochAt
      rw [show b.logAt (dataOid u s i) = none from hnone]
      exact Nat.zero_le _
    · intro p
      unfold RAMBackend.slotAt
      rw [show b.logAt (dataOid u s i) = none from hnone]
      exact .refl _
    · intro o' p ho'
      rw [hnone] at ho'
      cases ho'
    · intro o' ho'
      rw [hnone] at ho'
      cases ho'
  · exact h.kept_refl
  · -- only the epoch of the object changes
    have hobj := h.object s i o ho
    refine h.kept_setLog ⟨h0, he, hobj.mapped, hobj.bounded, hobj.limit⟩ ⟨?_, ?_, ?_, ?_⟩
    · rw [objectEpoch_of_objectAt ho]
      exact le_of_lt hlt
    · intro p
      rw [RAMBackend.slotAt_of_logAt ho, LogObject.slot_setEpoch]
      exact .refl _
    · intro o' p ho' hb
      rw [show objectAt u b s i = some o from ho] at ho'
      cases ho'
      exact hb
    · intro o' ho' _
      rw [show objectAt u b s i = some o from ho] at ho'
      cases ho'
      exact ⟨rfl, rfl, rfl⟩
  · exact h.kept_refl

/-! ## View calls -/

/-- What the head object holds, in terms of the views. -/
theorem LogOk.head_blobs (h : LogOk u name b) :
    ∃ proj blobs, b.objects.lookup u.hoid = some (.projection proj) ∧ proj.pfx = u.pfx ∧
      proj.epoch = latestEpoch u b ∧
      proj.projections.toList = Lib.OrderedMap.numbered 1 blobs ∧
      blobs.length = latestEpoch u b ∧ blobs.map View.decode = (viewsOf u b).map .ok := by
  obtain ⟨proj, blobs, hl, hpfx, hep, hnum, hdec⟩ := h.head.head
  have hlen : blobs.length = (viewsOf u b).length := by
    have := congrArg List.length hdec
    simpa using this
  exact ⟨proj, blobs, hl, hpfx, hep.trans hlen, hnum, hlen, hdec⟩

theorem latestEpoch_pos (h : LogOk u name b) : 0 < latestEpoch u b :=
  List.length_pos_iff.mpr h.history.ne_nil

/-- There is a latest view. -/
theorem LogOk.latest (h : LogOk u name b) : ∃ v, ViewAt (viewsOf u b) (latestEpoch u b) v :=
  exists_viewAt (latestEpoch_pos h) (le_refl _)

/-- The name of the log leads to its head object. -/
theorem LogOk.openLog (h : LogOk u name b) : b.openLog name = .ok (u.hoid, u.pfx) := by
  obtain ⟨proj, blobs, hl, hpfx, -⟩ := h.head.head
  unfold RAMBackend.openLog
  rw [if_neg h.head.link.1, h.head.link.2]
  dsimp only
  rw [hl]
  dsimp only
  rw [hpfx]

/-- `ReadViews` of epoch 0 returns the latest view. -/
theorem LogOk.readLatest (h : LogOk u name b) :
    ∃ blob v, b.readViews u.hoid 0 1 = .ok [(latestEpoch u b, blob)] ∧
      View.decode blob = .ok v ∧ ViewAt (viewsOf u b) (latestEpoch u b) v := by
  obtain ⟨proj, blobs, hl, -, -, hnum, hlen, hdec⟩ := h.head_blobs
  have hpos := latestEpoch_pos h
  obtain ⟨v, hv⟩ := h.latest
  have hne : blobs ≠ [] := by
    intro hn
    rw [hn] at hlen
    simp at hlen
    omega
  refine ⟨blobs.getLast hne, v, ?_, ?_, hv⟩
  · unfold RAMBackend.readViews
    rw [if_neg u.hoid_ne_empty, hl]
    simp only [Nat.not_lt_zero, if_false, if_true, Lib.OrderedMap.last?, hnum,
      Lib.OrderedMap.getLast?_numbered, List.getLast?_eq_some_getLast hne, Option.map_some,
      Option.toList_some, hlen]
    rw [Nat.add_sub_cancel_left]
  · have hget : (blobs.map View.decode)[latestEpoch u b - 1]? = some (.ok v) := by
      rw [hdec, List.getElem?_map, hv.2]
      rfl
    have hlast : blobs[latestEpoch u b - 1]? = some (blobs.getLast hne) := by
      rw [List.getLast_eq_getElem, List.getElem?_eq_getElem (by omega)]
      simp [hlen]
    rw [List.getElem?_map, hlast] at hget
    simpa using hget

/-- The stored views, read back in the order of their epochs. -/
theorem filterMap_decode_numbered {blobs : List Fbs.View} {vs : List View}
    (h : blobs.map View.decode = vs.map .ok) (k : Nat) :
    (Lib.OrderedMap.numbered k blobs).filterMap (fun kv => (View.decode kv.2).toOption) = vs := by
  induction blobs generalizing vs k with
  | nil =>
    have hnil : vs = [] := by simpa using h.symm
    rw [hnil]
    rfl
  | cons y ys ih =>
    cases vs with
    | nil => simp at h
    | cons x xs =>
      simp only [List.map_cons, List.cons.injEq] at h
      have htop : (View.decode y).toOption = some x := by rw [h.1]; rfl
      rw [Lib.OrderedMap.numbered_cons, List.filterMap_cons]
      simp only [htop]
      rw [ih h.2]

/-- The views that the head object holds. -/
theorem viewsOf_eq {proj : ProjectionObject Fbs.View} {blobs : List Fbs.View} {vs : List View}
    (hl : b.objects.lookup u.hoid = some (.projection proj))
    (hnum : proj.projections.toList = Lib.OrderedMap.numbered 1 blobs)
    (hdec : blobs.map View.decode = vs.map .ok) : viewsOf u b = vs := by
  unfold viewsOf
  rw [hl]
  dsimp only
  rw [hnum, filterMap_decode_numbered hdec]

/-- What a proposal can do: it is late, or it becomes the latest view. -/
theorem LogOk.proposeView (h : LogOk u name b) {e : Nat} {v v' : View}
    (hv : ViewAt (viewsOf u b) e v) (hn : NextView e v v') :
    (e < latestEpoch u b ∧ b.proposeView u.hoid (e + 1) v'.encode = (.error .espipe, b)) ∨
    (e = latestEpoch u b ∧ ∃ b', b.proposeView u.hoid (e + 1) v'.encode = (.ok (), b') ∧
      viewsOf u b' = viewsOf u b ++ [v'.stored] ∧ b'.blackhole = b.blackhole ∧
      (∀ key, key ≠ u.hoid → b'.objects.lookup key = b.objects.lookup key) ∧
      ∃ proj blobs, b'.objects.lookup u.hoid = some (.projection proj) ∧ proj.pfx = u.pfx ∧
        proj.epoch = blobs.length ∧ proj.projections.toList = Lib.OrderedMap.numbered 1 blobs ∧
        blobs.map View.decode = (viewsOf u b').map .ok) := by
  obtain ⟨proj, blobs, hl, hpfx, hep, hnum, hlen, hdec⟩ := h.head_blobs
  have hle := hv.le_length
  unfold RAMBackend.proposeView
  rw [if_neg u.hoid_ne_empty, if_neg (by omega), hl]
  dsimp only
  have hreq : ¬ proj.epoch + 1 < e + 1 := by
    rw [hep]
    exact Nat.not_lt.mpr (Nat.succ_le_succ hle)
  rw [if_neg hreq]
  -- the epoch check: exactly the successor of the latest view is accepted
  by_cases heq : e = latestEpoch u b
  · right
    refine ⟨heq, ?_⟩
    have hfind : (proj.projections.find? (e + 1)).isSome = false := by
      unfold Lib.OrderedMap.find?
      rw [hnum, Lib.OrderedMap.find?_numbered, if_pos (by omega), Nat.add_sub_cancel,
        List.getElem?_eq_none (by omega)]
      rfl
    rw [if_neg (by rw [hep, heq]; simp), hfind]
    have hdecode : View.decode v'.encode = .ok v'.stored := by
      rw [heq] at hv hn
      exact (h.history.snoc hv hn).2
    have hins : Lib.OrderedMap.insertList (e + 1) v'.encode proj.projections.toList =
        Lib.OrderedMap.numbered 1 (blobs ++ [v'.encode]) := by
      rw [hnum, heq, ← hlen, Nat.add_comm, Lib.OrderedMap.insertList_numbered]
    have hnew : (blobs ++ [v'.encode]).map View.decode = (viewsOf u b ++ [v'.stored]).map .ok := by
      rw [List.map_append, List.map_append, hdec]
      simp [hdecode]
    have hviews := viewsOf_eq (u := u)
      (b := { b with objects := b.objects.insert u.hoid (.projection
        { proj with epoch := e + 1, projections := proj.projections.emplace (e + 1) v'.encode }) })
      (AList.lookup_insert _) hins hnew
    refine ⟨_, rfl, hviews, rfl, ?_, ?_⟩
    · intro key hkey
      exact AList.lookup_insert_ne hkey
    · refine ⟨_, blobs ++ [v'.encode], AList.lookup_insert _, hpfx, ?_, hins, ?_⟩
      · simp [hlen, heq]
      · rw [hnew]
        exact congrArg _ hviews.symm
  · left
    have hlt : e < latestEpoch u b := lt_of_le_of_ne hle heq
    exact ⟨hlt, by rw [if_pos (by rw [hep]; omega)]⟩

/-- Calls that do not touch the objects at all. -/
theorem LogOk.congr (h : LogOk u name b) (ho : b'.objects = b.objects)
    (hb : b'.blackhole = b.blackhole) : Kept u name b b' := by
  have hviews : viewsOf u b' = viewsOf u b := by
    unfold viewsOf
    rw [ho]
  have hlog : ∀ oid, b'.logAt oid = b.logAt oid := by
    intro oid
    unfold RAMBackend.logAt
    rw [ho]
  have hobj : ∀ s i, objectAt u b' s i = objectAt u b s i := fun s i => hlog _
  have hep : ∀ s i, objectEpoch u b' s i = objectEpoch u b s i := by
    intro s i
    unfold objectEpoch RAMBackend.epochAt
    rw [hlog]
  refine ⟨⟨hb.trans h.stores, ⟨?_, ?_⟩, ?_, ?_, ?_⟩, ⟨?_, ?_, ?_, ?_, ?_⟩⟩
  · rw [ho, hviews]
    exact h.head.head
  · rw [ho]
    exact h.head.link
  · rw [hviews]
    exact h.history
  · intro s i
    rw [ho]
    exact h.kinds s i
  · intro s i o hobj'
    rw [hviews]
    exact h.object s i o (hobj s i ▸ hobj')
  · rw [hviews]
  · intro s i
    rw [hep]
  · intro s i p
    unfold RAMBackend.slotAt
    rw [hlog]
    exact .refl _
  · intro s i o p hobj' hbelow
    exact ⟨o, (hobj s i).trans hobj', hbelow⟩
  · intro s i o hobj' _
    exact ⟨o, (hobj s i).trans hobj', rfl, rfl, rfl⟩

/-- An accepted proposal adds one view, and no object moves. -/
theorem kept_proposeView (h : LogOk u name b) {e : Nat} {v v' : View}
    (hv : ViewAt (viewsOf u b) e v) (hn : NextView e v v') :
    Kept u name b (b.proposeView u.hoid (e + 1) v'.encode).2 := by
  rcases h.proposeView hv hn with ⟨-, hp⟩ | ⟨heq, b', hp, hviews, hbh, hkeys, hhead⟩ <;> rw [hp]
  · exact h.kept_refl
  show Kept u name b b'
  have hobj : ∀ s i, objectAt u b' s i = objectAt u b s i := by
    intro s i
    unfold objectAt RAMBackend.logAt
    rw [hkeys _ (dataOid_ne_hoid u s i)]
  have hep : ∀ s i, objectEpoch u b' s i = objectEpoch u b s i := by
    intro s i
    unfold objectEpoch RAMBackend.epochAt
    rw [show b'.logAt (dataOid u s i) = b.logAt (dataOid u s i) from hobj s i]
  have hpre : viewsOf u b <+: viewsOf u b' := by
    rw [hviews]
    exact List.prefix_append _ _
  have hlen : latestEpoch u b' = latestEpoch u b + 1 := by
    unfold latestEpoch
    rw [hviews]
    simp
  -- accepted: the views are those before and the new one
  rw [heq] at hv hn
  refine ⟨⟨hbh.trans h.stores, ⟨?_, ?_⟩, ?_, ?_, ?_⟩, ⟨hpre, ?_, ?_, ?_, ?_⟩⟩
  · exact hhead
  · refine ⟨h.head.link.1, ?_⟩
    rw [hkeys]
    · exact h.head.link.2
    · intro hc
      have := link_ne_key name (.head u)
      rw [Key.head_name] at this
      exact this hc.symm
  · rw [hviews]
    exact (h.history.snoc hv hn).1
  · intro s i
    rw [hkeys _ (dataOid_ne_hoid u s i)]
    exact h.kinds s i
  · intro s i o ho
    have hold := h.object s i o (hobj s i ▸ ho)
    refine ⟨hold.epoch_pos, ?_, fun q hq => (hold.mapped q hq).mono hpre, hold.bounded, ?_⟩
    · have := hold.epoch_le
      unfold latestEpoch at hlen
      omega
    · intro l hl
      obtain ⟨w, hw, st, hst, hle⟩ := hold.limit l hl
      exact ⟨w, hpre.subset hw, st, hst, hle⟩
  · intro s i
    rw [hep]
  · intro s i p
    unfold RAMBackend.slotAt
    rw [show b'.logAt (dataOid u s i) = b.logAt (dataOid u s i) from hobj s i]
    exact .refl _
  · intro s i o p ho hbelow
    exact ⟨o, (hobj s i).trans ho, hbelow⟩
  · intro s i o ho _
    exact ⟨o, (hobj s i).trans ho, rfl, rfl, rfl⟩

/-- **One call of a client** keeps the invariant, and the log grows. -/
theorem CallOk.exec (h : LogOk u name b) {α : Type} {c : Call Fbs.View α}
    (hc : CallOk u name b c) : Kept u name b (b.exec c).2 := by
  cases hc with
  | openLog => exact h.kept_refl
  | uniqueId =>
    show Kept u name b (b.uniqueId u.hoid).2
    unfold RAMBackend.uniqueId
    rw [if_neg u.hoid_ne_empty]
    exact h.congr rfl rfl
  | readViews => exact h.kept_refl
  | proposeView hv hn => exact kept_proposeView h hv hn
  | read => exact h.kept_refl
  | write data hv hm => exact kept_write h hv hm data
  | fill hv hm => exact kept_fill h hv hm
  | trim hv hm => exact kept_trim_single h hv hm
  | trimRange hv hs hmin hmem => exact kept_trim_range h hv hs hmin hmem
  | «seal» s i h0 he => exact kept_seal h h0 he
  | maxPos => exact h.kept_refl

end

end ZLog
