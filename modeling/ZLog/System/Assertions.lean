import ZLog.System.Calls

/-!
# What the threads know

An assertion for every control state of every thread, about the stored log only.  Each
assertion stays true while the log grows, so the steps of other threads and of other clients
keep it, and a thread has to re-establish only its own.

The assertions of `propose_sequencer` are the ones that carry its correctness: what the scan
found out about an object stays true until the epoch it proposes is taken, because an object
sealed for that epoch accepts no call of an older view.
-/

namespace ZLog

variable (u : Uuid) (name : String)

/-! ## Positions -/

section

variable {u name} {b : Store}

theorem LogOk.mapped_latest (h : LogOk u name b) {v : View} {p s i : Nat}
    (hv : ViewAt (viewsOf u b) (latestEpoch u b) v) (hm : Mapped (viewsOf u b) p s i) :
    ∃ last, v.objectMap.map p = .ok (some (Stripe.oidAt s i), last) := by
  obtain ⟨w, hw, last, hmap⟩ := hm
  obtain ⟨e, hwe⟩ := viewAt_of_mem hw
  exact h.history.map_stable hwe hv hwe.le_length hmap

/-- The view of the latest epoch is the last one stored. -/
theorem getLast?_viewsOf {v : View} (hv : ViewAt (viewsOf u b) (latestEpoch u b) v) :
    (viewsOf u b).getLast? = some v := by
  rw [List.getLast?_eq_getElem?]
  exact hv.2

/-- The slot of a mapped position. -/
theorem LogOk.positionSlot_eq (h : LogOk u name b) {p s i : Nat}
    (hm : Mapped (viewsOf u b) p s i) :
    positionSlot u b p = b.slotAt (dataOid u s i) p := by
  obtain ⟨v, hv⟩ := h.latest
  obtain ⟨last, hmap⟩ := h.mapped_latest hv hm
  unfold positionSlot
  rw [getLast?_viewsOf hv]
  dsimp only
  rw [hmap]
  rfl

/-- An unmapped position is unwritten. -/
theorem LogOk.positionSlot_cases (h : LogOk u name b) (p : Nat) :
    positionSlot u b p = .unwritten ∨
      ∃ s i, Mapped (viewsOf u b) p s i ∧
        positionSlot u b p = b.slotAt (dataOid u s i) p := by
  obtain ⟨v, hv⟩ := h.latest
  obtain ⟨L, hL⟩ := h.history.layout
  rcases (hL v hv.mem).map_cases p with ⟨-, hmap⟩ | ⟨-, -, hmap⟩ | ⟨-, -, hmap⟩
  · left
    unfold positionSlot
    rw [getLast?_viewsOf hv]
    dsimp only
    rw [hmap]
  · left
    unfold positionSlot
    rw [getLast?_viewsOf hv]
    dsimp only
    rw [hmap]
  · right
    have hm : Mapped (viewsOf u b) p (p / L.size) (p % L.width) := ⟨v, hv.mem, _, hmap⟩
    exact ⟨_, _, hm, h.positionSlot_eq hm⟩

/-- As the log grows, every position moves along its life cycle. -/
theorem Grows.positionSlot_le {b' : Store} (hg : Grows u b b') (h : LogOk u name b)
    (h' : LogOk u name b') (p : Nat) :
    Slot.Le (positionSlot u b p) (positionSlot u b' p) := by
  rcases h.positionSlot_cases p with hu | ⟨s, i, hm, heq⟩
  · rw [hu]
    cases positionSlot u b' p with
    | unwritten => exact .refl _
    | written d => exact .write d
    | invalid => exact .fill
  · rw [heq, h'.positionSlot_eq (hm.mono hg.views)]
    exact hg.slot s i p

end

/-! ## Memory -/

/-- The view is stored under its epoch. -/
def Held (b : Store) (v : VersionedView) : Prop := ViewAt (viewsOf u b) v.epoch v.view

/-- The handles in a client's memory. -/
structure SharedOk (b : Store) (sh : Shared) : Prop where
  backend : ∀ lb, sh.backend = some lb →
    lb.hoid = u.hoid ∧ lb.pfx = u.pfx ∧ cStr lb.token ≠ ""
  view : ∀ v, sh.view = some v → Held u b v

/-! ## Waiting -/

/-- There is a newer view, or an object that only accepts a newer one. -/
def Behind (b : Store) (epoch : Nat) : Prop :=
  epoch < latestEpoch u b ∨ ∃ s i, epoch < objectEpoch u b s i

/-- A thread waits for a view only when there is a newer one, or an object that only accepts one. -/
def WaitOk (b : Store) : WaitPc → Prop
  | .enter epoch => Behind u b epoch
  | .blocked waiter => Behind u b waiter.epoch

/-- A thread that has proposed waits for a view that is stored, its own or that of another one. -/
def NewerOk (b : Store) : WaitPc → Prop
  | .enter epoch => epoch < latestEpoch u b
  | .blocked waiter => waiter.epoch < latestEpoch u b

/-! ## The view manager -/

/-- `try_expand_view` proposes an expansion of the view it has read. -/
def ExpandOk (b : Store) : ExpandPc → Prop
  | .propose _ curr newView =>
    Held u b curr ∧ ∃ position options,
      curr.view.expandMapping position options = .ok (some newView)
  | .waitNew wait => WaitOk u b wait
  | .waitStale _ wait => WaitOk u b wait
  | _ => True

/-- `advance_min_valid_position` proposes an advance of the view it has read. -/
def AdvanceOk (b : Store) : AdvancePc → Prop
  | .propose curr newView =>
    Held u b curr ∧ ∃ position, curr.view.advanceMinValidPosition position = some newView
  | .wait wait => WaitOk u b wait
  | .start => True

/-- The stripe is one of the view. -/
def StripeOf (curr : VersionedView) (stripe : Stripe) : Prop :=
  curr.objectMap.stripeById stripe.stripeId = .ok stripe

/-- The objects `i < k` of a stripe are sealed for the epoch after the view's. -/
def SealedUpTo (b : Store) (curr : VersionedView) (stripeId k : Nat) : Prop :=
  ∀ i, i < k → curr.epoch < objectEpoch u b stripeId i

/-- `acc` is the greatest of the answers of the objects `i < k` of a stripe. -/
structure MaxPosIs (b : Store) (stripeId k : Nat) (acc : Option Nat) : Prop where
  le : ∀ i o x, i < k → objectAt u b stripeId i = some o → o.maxPos = some x →
    ∃ y, acc = some y ∧ x ≤ y
  attained : ∀ y, acc = some y → ∃ i o, i < k ∧ objectAt u b stripeId i = some o ∧ o.maxPos = some y

/-- The same, unless the epoch after the view's is taken. -/
def MaxPosUpTo (b : Store) (curr : VersionedView) (stripeId k : Nat) (acc : Option Nat) : Prop :=
  curr.epoch < latestEpoch u b ∨ MaxPosIs u b stripeId k acc

/-- The stripes from `k` on were scanned and found empty. -/
structure ScannedFrom (b : Store) (curr : VersionedView) (k : Nat) : Prop where
  sealed : ∀ t stripe, k ≤ t → curr.objectMap.stripeById t = .ok stripe →
    SealedUpTo u b curr t stripe.width
  empty : ∀ t stripe, k ≤ t → curr.objectMap.stripeById t = .ok stripe →
    MaxPosUpTo u b curr t stripe.width none

def ProposeOk (b : Store) : ProposePc → Prop
  | .seal _ curr stripe oid rest =>
    Held u b curr ∧ StripeOf curr stripe ∧ ScannedFrom u b curr (stripe.stripeId + 1) ∧
    ∃ k, stripe.oids.drop k = oid :: rest ∧ SealedUpTo u b curr stripe.stripeId k
  | .maxPos _ curr stripe oid rest acc =>
    Held u b curr ∧ StripeOf curr stripe ∧ ScannedFrom u b curr (stripe.stripeId + 1) ∧
    SealedUpTo u b curr stripe.stripeId stripe.width ∧
    (∀ x, acc = some x → stripe.minPosition ≤ x) ∧
    ∃ k, stripe.oids.drop k = oid :: rest ∧ MaxPosUpTo u b curr stripe.stripeId k acc
  | .propose _ curr seed => Held u b curr ∧ SeedOk u b curr.epoch curr.view seed
  | .waitNew wait => NewerOk u b wait
  | .waitStale _ curr wait => Held u b curr ∧ NewerOk u b wait
  | .check _ curr => Held u b curr
  | _ => True

def ExpanderOk (b : Store) : ExpanderPc → Prop
  | .expand _ pc => ExpandOk u b pc
  | _ => True

def StripeInitOk (b : Store) : StripeInitPc → Prop
  | .seal epoch oid rest =>
    0 < epoch ∧ epoch ≤ latestEpoch u b ∧ ∀ x ∈ oid :: rest, ∃ s i, x = Stripe.oidAt s i
  | _ => True

/-! ## Reading views and opening -/

/-- The blob is the stored view of the epoch. -/
def BlobAt (b : Store) (epoch : Nat) (blob : Fbs.View) : Prop :=
  ∃ v, View.decode blob = .ok v ∧ ViewAt (viewsOf u b) epoch v

def RefreshOk (b : Store) : RefreshPc → Prop
  | .install epoch blob => BlobAt u b epoch blob
  | _ => True

/-- Between its steps the opening thread remembers names of this log, and a stored view. -/
def OpenOk (b : Store) : OpenPc → Prop
  | .uniqueId hoid pfx => hoid = u.hoid ∧ pfx = u.pfx
  | .construct hoid pfx _ => hoid = u.hoid ∧ pfx = u.pfx
  | .install epoch blob => BlobAt u b epoch blob
  | .propose pc => ProposeOk u b pc
  | _ => True

/-! ## Operations -/

/-- The position of a request, which its thread never changes. -/
def Request.at (position : Nat) : Request → Prop
  | .append _ => True
  | .read p => p = position
  | .fill p => p = position
  | .trim p => p = position
  | .trimTo p => p = position
  | .checkTail => True

/-- The request makes one entry call at one position. -/
def Request.positional : Request → Prop
  | .append _ => True
  | .read _ => True
  | .fill _ => True
  | .trim _ => True
  | _ => False

/-- The view maps the position to the object. -/
def MapsTo (b : Store) (v : VersionedView) (position : Nat) (oid : String) : Prop :=
  Held u b v ∧ ∃ s i last, oid = Stripe.oidAt s i ∧
    v.objectMap.map position = .ok (some (Stripe.oidAt s i), last)

/-- The trim limit of the object covers `p`. -/
def Limited (b : Store) (p s i : Nat) : Prop :=
  ∃ o, objectAt u b s i = some o ∧ o.belowTrimLimit p = true

/-- The objects of the stripes below `k` that hold positions up to `p` are trimmed up to `p`. -/
def TrimmedBelow (b : Store) (v : VersionedView) (p k : Nat) : Prop :=
  ∀ t stripe i full, t < k → v.objectMap.stripeById t = .ok stripe → stripe.minPosition ≤ p →
    (Stripe.oidAt t i, full) ∈ ObjectMap.mapToObjects stripe p → Limited u b p t i

/-- What the result of an operation says about the log from then on. -/
def DoneOk (b : Store) : Request → Ret Reply → Prop
  | .append d, .ok (.position p) => positionSlot u b p = .written d ∨ positionSlot u b p = .invalid
  | .read p, .ok (.data d) => positionSlot u b p = .written d ∨ positionSlot u b p = .invalid
  | .fill p, .ok _ => positionSlot u b p = .invalid
  | .trim p, .ok _ => positionSlot u b p = .invalid
  | .trimTo p, .ok _ => ∀ q ≤ p, positionSlot u b q = .invalid
  | _, _ => True

def OpOk (b : Store) (r : Request) : OpPc → Prop
  | .start p _ => r.at p
  | .sequence v _ => Held u b v
  | .scheduleExpand v oid p _ => r.at p ∧ r.positional ∧ MapsTo u b v p oid
  | .io v oid p _ => r.at p ∧ r.positional ∧ MapsTo u b v p oid
  | .seal v oid p _ => r.at p ∧ Held u b v ∧ (∃ s i, oid = Stripe.oidAt s i) ∧
      (r.positional → MapsTo u b v p oid)
  | .expand p _ pc => r.at p ∧ ExpandOk u b pc
  | .wait p _ wait => r.at p ∧ WaitOk u b wait
  | .advance p pc => r = .trimTo p ∧ AdvanceOk u b pc
  | .walk v p k => r = .trimTo p ∧ Held u b v ∧ TrimmedBelow u b v p k
  | .trim v p k oid full rest => r = .trimTo p ∧ Held u b v ∧
      ∃ t stripe done, k = t + 1 ∧ v.objectMap.stripeById t = .ok stripe ∧
        stripe.minPosition ≤ p ∧ TrimmedBelow u b v p t ∧
        ObjectMap.mapToObjects stripe p = done ++ (oid, full) :: rest ∧
        ∀ i f, (Stripe.oidAt t i, f) ∈ done → Limited u b p t i
  | .done result => DoneOk u b r result

/-- What is known of a thread at its control state. -/
def PcOk (b : Store) : Pc → Prop
  | .opener pc => OpenOk u b pc
  | .refresh pc => RefreshOk u b pc
  | .expander pc => ExpanderOk u b pc
  | .stripeInit pc => StripeInitOk u b pc
  | .op request pc => OpOk u b request pc

/-! ## Stability -/

section

variable {u name} {b b' : Store}

theorem Held.mono {v : VersionedView} (h : Held u b v) (hg : Grows u b b') : Held u b' v :=
  ViewAt.mono h hg.views

/-- A client never holds a view that is not stored. -/
theorem Held.epoch_le {v : VersionedView} (h : Held u b v) : v.epoch ≤ latestEpoch u b :=
  ViewAt.le_length h

theorem Behind.mono {epoch : Nat} (h : Behind u b epoch) (hg : Grows u b b') :
    Behind u b' epoch := by
  rcases h with h | ⟨s, i, h⟩
  · exact Or.inl (lt_of_lt_of_le h hg.latest_le)
  · exact Or.inr ⟨s, i, lt_of_lt_of_le h (hg.epoch s i)⟩

/-- A wait stays justified while the log grows. -/
theorem WaitOk.mono {pc : WaitPc} (h : WaitOk u b pc) (hg : Grows u b b') : WaitOk u b' pc := by
  cases pc with
  | enter epoch => exact Behind.mono h hg
  | blocked waiter => exact Behind.mono h hg

/-- A newer view does not go away. -/
theorem NewerOk.mono {pc : WaitPc} (h : NewerOk u b pc) (hg : Grows u b b') : NewerOk u b' pc := by
  cases pc with
  | enter epoch => exact Nat.lt_of_lt_of_le h hg.latest_le
  | blocked waiter => exact Nat.lt_of_lt_of_le h hg.latest_le

theorem SharedOk.mono {sh : Shared} (h : SharedOk u b sh) (hg : Grows u b b') :
    SharedOk u b' sh :=
  ⟨h.backend, fun v hv => (h.view v hv).mono hg⟩

/-- The view that an expansion started from stays stored. -/
theorem ExpandOk.mono {pc : ExpandPc} (h : ExpandOk u b pc) (hg : Grows u b b') :
    ExpandOk u b' pc := by
  cases pc with
  | propose retries curr newView => exact ⟨Held.mono h.1 hg, h.2⟩
  | waitNew wait => exact WaitOk.mono h hg
  | waitStale retries wait => exact WaitOk.mono h hg
  | start => trivial
  | initStripe => trivial
  | checkShutdown => trivial

theorem AdvanceOk.mono {pc : AdvancePc} (h : AdvanceOk u b pc) (hg : Grows u b b') :
    AdvanceOk u b' pc := by
  cases pc with
  | propose curr newView => exact ⟨Held.mono h.1 hg, h.2⟩
  | wait wait => exact WaitOk.mono h hg
  | start => trivial

/-- Sealed objects stay sealed. -/
theorem SealedUpTo.mono {curr : VersionedView} {t k : Nat} (h : SealedUpTo u b curr t k)
    (hg : Grows u b b') : SealedUpTo u b' curr t k :=
  fun i hi => lt_of_lt_of_le (h i hi) (hg.epoch t i)

/-- An object with a positive epoch exists. -/
theorem exists_objectAt {s i : Nat} (h : 0 < objectEpoch u b s i) :
    ∃ o, objectAt u b s i = some o := by
  unfold objectEpoch RAMBackend.epochAt at h
  unfold objectAt
  cases hb : b.logAt (dataOid u s i) with
  | none => simp [hb] at h
  | some o => exact ⟨o, rfl⟩

/-- An object that exists answers with its maximum position. -/
theorem exec_maxPos {s i : Nat} {o : LogObject} (ho : objectAt u b s i = some o) :
    b.exec (.maxPos (dataOid u s i)) = (.ok o.maxPos, b) := by
  show (b.maxPos (dataOid u s i), b) = _
  unfold RAMBackend.maxPos
  rw [if_neg (dataOid_ne_empty u _ _), RAMBackend.logAt_eq_some.mp ho]

/-- An object sealed ahead of the views keeps its content while the views stay behind. -/
theorem Grows.content (hg : Grows u b b') {s i e : Nat} {o' : LogObject}
    (hsealed : e < objectEpoch u b s i) (hlatest : latestEpoch u b' ≤ e)
    (ho' : objectAt u b' s i = some o') :
    ∃ o, objectAt u b s i = some o ∧ o'.entries = o.entries ∧ o'.trimLimit = o.trimLimit ∧
      o'.maxpos = o.maxpos := by
  obtain ⟨o, ho⟩ := exists_objectAt (Nat.zero_lt_of_lt hsealed)
  rw [objectEpoch_of_objectAt ho] at hsealed
  obtain ⟨o'', ho'', hrest⟩ := hg.frozen s i o ho (by omega)
  rw [ho'] at ho''
  cases ho''
  exact ⟨o, ho, hrest⟩

/-- So it goes on answering with the same maximum. -/
theorem Grows.maxPos (hg : Grows u b b') {s i e : Nat} {o : LogObject}
    (hsealed : e < objectEpoch u b s i) (hlatest : latestEpoch u b' ≤ e)
    (ho : objectAt u b s i = some o) : ∃ o', objectAt u b' s i = some o' ∧ o'.maxPos = o.maxPos := by
  rw [objectEpoch_of_objectAt ho] at hsealed
  obtain ⟨o', ho', he, hl, hm⟩ := hg.frozen s i o ho (lt_of_le_of_lt hlatest hsealed)
  refine ⟨o', ho', ?_⟩
  unfold LogObject.maxPos
  rw [he, hl, hm]

/-- The maximum positions of sealed objects do not move: this is what the scan relies on. -/
theorem MaxPosUpTo.mono {curr : VersionedView} {t k : Nat} {acc : Option Nat}
    (h : MaxPosUpTo u b curr t k acc) (hs : SealedUpTo u b curr t k) (hg : Grows u b b') :
    MaxPosUpTo u b' curr t k acc := by
  rcases Nat.lt_or_ge curr.epoch (latestEpoch u b') with hlt | hge
  · exact Or.inl hlt
  · rcases h with h | h
    · exact Or.inl (lt_of_lt_of_le h hg.latest_le)
    · refine Or.inr ⟨fun i o' x hi ho' hx => ?_, fun y hy => ?_⟩
      · obtain ⟨o, ho, -⟩ := hg.content (hs i hi) hge ho'
        obtain ⟨o'', ho'', hmax⟩ := hg.maxPos (hs i hi) hge ho
        rw [ho'] at ho''
        cases ho''
        exact h.le i o x hi ho (hmax.symm.trans hx)
      · obtain ⟨i, o, hi, ho, hmax⟩ := h.attained y hy
        obtain ⟨o', ho', hmax'⟩ := hg.maxPos (hs i hi) hge ho
        exact ⟨i, o', hi, ho', hmax'.trans hmax⟩

/-- Stripes that were found empty after they were sealed stay empty. -/
theorem ScannedFrom.mono {curr : VersionedView} {k : Nat} (h : ScannedFrom u b curr k)
    (hg : Grows u b b') : ScannedFrom u b' curr k where
  sealed t stripe ht hs := (h.sealed t stripe ht hs).mono hg
  empty t stripe ht hs := (h.empty t stripe ht hs).mono (h.sealed t stripe ht hs) hg

theorem SeedSealed.mono {e seed : Nat} {v : View} (h : SeedSealed u b e v seed)
    (hg : Grows u b b') : SeedSealed u b' e v seed :=
  fun p s i last hp hm => le_trans (h p s i last hp hm) (hg.epoch s i)

/-- The slots of an object sealed ahead of the views stay. -/
theorem Grows.slotAt_eq (hg : Grows u b b') {s i e : Nat} (p : Nat)
    (hsealed : e < objectEpoch u b s i) (hlatest : latestEpoch u b' ≤ e) :
    b'.slotAt (dataOid u s i) p = b.slotAt (dataOid u s i) p := by
  obtain ⟨o', ho'⟩ := exists_objectAt (Nat.zero_lt_of_lt (lt_of_lt_of_le hsealed (hg.epoch s i)))
  obtain ⟨o, ho, he, hl, -⟩ := hg.content hsealed hlatest ho'
  rw [RAMBackend.slotAt_of_logAt ho', RAMBackend.slotAt_of_logAt ho]
  unfold LogObject.slot LogObject.belowTrimLimit
  rw [he, hl]

/-- A seed stays good until its epoch is taken. -/
theorem SeedOk.mono {curr : VersionedView} {seed : Nat}
    (h : SeedOk u b curr.epoch curr.view seed) (hb : LogOk u name b) (hc : Held u b curr)
    (hk : Kept u name b b') : SeedOk u b' curr.epoch curr.view seed := by
  rcases Nat.lt_or_ge curr.epoch (latestEpoch u b') with hlt | hge
  · exact Or.inl hlt
  · rcases h with h | ⟨top, htop, hmax, hsealed, hfree⟩
    · exact Or.inl (lt_of_lt_of_le h hk.grows.latest_le)
    · refine Or.inr ⟨top, htop, fun x hx => ?_, hsealed.mono hk.grows, fun p hp => ?_⟩
      · obtain ⟨s, i, o, hep, ho, hmax⟩ := hmax x hx
        obtain ⟨o', ho', hmax'⟩ := hk.grows.maxPos hep hge ho
        exact ⟨s, i, o', lt_of_lt_of_le hep (hk.grows.epoch s i), ho', hmax'.trans hmax⟩
      -- a mapped position is mapped by the view of the proposal, to a sealed object
      rcases hk.ok.positionSlot_cases p with hu | ⟨s, i, hm, heq⟩
      · exact hu
      · have hc' := hc.mono hk.grows
        have hlast : curr.epoch = latestEpoch u b' := le_antisymm hc'.epoch_le hge
        have hat : ViewAt (viewsOf u b') (latestEpoch u b') curr.view := hlast ▸ hc'
        obtain ⟨last, hmap⟩ := hk.ok.mapped_latest hat hm
        have hep := hsealed p s i last hp hmap
        rw [heq, hk.grows.slotAt_eq p (e := curr.epoch) hep hge,
          ← hb.positionSlot_eq (mapped_of_map hc hmap)]
        exact hfree p hp

/-- The scan of `propose_sequencer` stays valid, or the epoch it seals for is taken. -/
theorem ProposeOk.mono {pc : ProposePc} (h : ProposeOk u b pc) (hb : LogOk u name b)
    (hk : Kept u name b b') : ProposeOk u b' pc := by
  have hg := hk.grows
  cases pc with
  | «seal» retries curr stripe oid rest =>
    obtain ⟨hc, hs, hscan, k, hd, hk'⟩ := h
    exact ⟨hc.mono hg, hs, hscan.mono hg, k, hd, hk'.mono hg⟩
  | maxPos retries curr stripe oid rest acc =>
    obtain ⟨hc, hs, hscan, hsealed, hacc, k, hd, hmax⟩ := h
    refine ⟨hc.mono hg, hs, hscan.mono hg, hsealed.mono hg, hacc, k, hd, ?_⟩
    refine hmax.mono (fun i hi => hsealed i ?_) hg
    have hlen := congrArg List.length hd
    simp only [Stripe.oids, Stripe.makeOids, List.length_drop, List.length_map, List.length_range,
      List.length_cons] at hlen
    omega
  | propose retries curr seed => exact ⟨Held.mono h.1 hg, SeedOk.mono h.2 hb h.1 hk⟩
  | waitNew wait => exact NewerOk.mono h hg
  | waitStale retries curr wait => exact ⟨Held.mono h.1 hg, NewerOk.mono h.2 hg⟩
  | check retries curr => exact Held.mono h hg
  | start => trivial
  | crash => trivial

theorem ExpanderOk.mono {pc : ExpanderPc} (h : ExpanderOk u b pc) (hg : Grows u b b') :
    ExpanderOk u b' pc := by
  cases pc with
  | expand position pc => exact ExpandOk.mono h hg
  | idle => trivial
  | check => trivial
  | clear => trivial
  | exited => trivial

theorem StripeInitOk.mono {pc : StripeInitPc} (h : StripeInitOk u b pc) (hg : Grows u b b') :
    StripeInitOk u b' pc := by
  cases pc with
  | «seal» epoch oid rest => exact ⟨h.1, le_trans h.2.1 hg.latest_le, h.2.2⟩
  | idle => trivial
  | view => trivial
  | exited => trivial

/-- A view that was read stays stored, even when it is no longer the latest. -/
theorem BlobAt.mono {epoch : Nat} {blob : Fbs.View} (h : BlobAt u b epoch blob)
    (hg : Grows u b b') : BlobAt u b' epoch blob := by
  obtain ⟨v, hd, hv⟩ := h
  exact ⟨v, hd, hv.mono hg.views⟩

theorem RefreshOk.mono {pc : RefreshPc} (h : RefreshOk u b pc) (hg : Grows u b b') :
    RefreshOk u b' pc := by
  cases pc with
  | install epoch blob => exact BlobAt.mono h hg
  | idle => trivial
  | fetch => trivial
  | readView => trivial
  | mark => trivial
  | exited => trivial

theorem OpenOk.mono {pc : OpenPc} (h : OpenOk u b pc) (hb : LogOk u name b)
    (hk : Kept u name b b') : OpenOk u b' pc := by
  cases pc with
  | uniqueId hoid pfx => exact h
  | construct hoid pfx id => exact h
  | install epoch blob => exact BlobAt.mono h hk.grows
  | propose pc => exact ProposeOk.mono h hb hk
  | _ => trivial

/-- A view maps its positions for ever. -/
theorem MapsTo.mono {v : VersionedView} {p : Nat} {oid : String} (h : MapsTo u b v p oid)
    (hg : Grows u b b') : MapsTo u b' v p oid :=
  ⟨h.1.mono hg, h.2⟩

/-- A trim limit only rises. -/
theorem Limited.mono {p s i : Nat} (h : Limited u b p s i) (hg : Grows u b b') :
    Limited u b' p s i := by
  obtain ⟨o, ho, hb⟩ := h
  exact hg.limit s i o p ho hb

theorem TrimmedBelow.mono {v : VersionedView} {p k : Nat} (h : TrimmedBelow u b v p k)
    (hg : Grows u b b') : TrimmedBelow u b' v p k :=
  fun t stripe i full ht hs hmin hmem => (h t stripe i full ht hs hmin hmem).mono hg

/-- A position that is written or invalid stays so. -/
theorem Slot.Le.settled {s t : Slot} (h : Slot.Le s t) {d : String}
    (hs : s = .written d ∨ s = .invalid) : t = .written d ∨ t = .invalid := by
  rcases hs with rfl | rfl
  · exact h.of_written
  · exact Or.inr h.eq_invalid

/-- The answer of an operation stays true. -/
theorem DoneOk.mono {r : Request} {result : Ret Reply} (h : DoneOk u b r result)
    (hb : LogOk u name b) (hk : Kept u name b b') : DoneOk u b' r result := by
  have hslot := hk.grows.positionSlot_le hb hk.ok
  have hinv : ∀ p, positionSlot u b p = .invalid → positionSlot u b' p = .invalid :=
    fun p hp => (hp ▸ hslot p).eq_invalid
  unfold DoneOk at h ⊢
  split
  · exact (hslot _).settled h
  · exact (hslot _).settled h
  · exact hinv _ h
  · exact hinv _ h
  · exact fun q hq => hinv q (h q hq)
  · trivial

/-- What is known of an operation stays true when others move. -/
theorem OpOk.mono {r : Request} {pc : OpPc} (h : OpOk u b r pc) (hb : LogOk u name b)
    (hk : Kept u name b b') : OpOk u b' r pc := by
  have hg := hk.grows
  cases pc with
  | start p pe => exact h
  | sequence v i => exact Held.mono h hg
  | scheduleExpand v oid p pe => exact ⟨h.1, h.2.1, MapsTo.mono h.2.2 hg⟩
  | io v oid p pe => exact ⟨h.1, h.2.1, MapsTo.mono h.2.2 hg⟩
  | «seal» v oid p pe =>
    exact ⟨h.1, Held.mono h.2.1 hg, h.2.2.1, fun hr => MapsTo.mono (h.2.2.2 hr) hg⟩
  | expand p pe pc => exact ⟨h.1, ExpandOk.mono h.2 hg⟩
  | wait p pe wait => exact ⟨h.1, WaitOk.mono h.2 hg⟩
  | advance p pc => exact ⟨h.1, AdvanceOk.mono h.2 hg⟩
  | walk v p k => exact ⟨h.1, Held.mono h.2.1 hg, TrimmedBelow.mono h.2.2 hg⟩
  | trim v p k oid full rest =>
    obtain ⟨hr, hv, t, stripe, done, hkt, hs, hmin, hbelow, hsplit, hdone⟩ := h
    exact ⟨hr, hv.mono hg, t, stripe, done, hkt, hs, hmin, hbelow.mono hg, hsplit,
      fun i f hmem => (hdone i f hmem).mono hg⟩
  | done result => exact DoneOk.mono h hb hk

/-- **Stability**: what a thread knows stays true while other threads run. -/
theorem PcOk.mono {pc : Pc} (h : PcOk u b pc) (hb : LogOk u name b) (hk : Kept u name b b') :
    PcOk u b' pc := by
  cases pc with
  | opener pc => exact OpenOk.mono h hb hk
  | refresh pc => exact RefreshOk.mono h hk.grows
  | expander pc => exact ExpanderOk.mono h hk.grows
  | stripeInit pc => exact StripeInitOk.mono h hk.grows
  | op request pc => exact OpOk.mono h hb hk

end

end ZLog
