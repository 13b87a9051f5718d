import ZLog.System.History
import ZLog.Storage.Slot
import ZLog.Storage.Names
import ZLog.Mapping.Partition
import ZLog.Client.World

/-!
# The stored state of one log

What the backend holds for the log with uuid `u`: its view history and its data objects.
`LogOk` is the invariant of this state and `Grows` the order in which it changes; both are
stated without reference to the clients.  The results of this module say that every call a
client makes (`CallOk`) keeps the one and follows the other.

Everything a client remembers about the log is true of all later states in the order `Grows`,
which is why the steps of other threads never invalidate it.
-/

namespace ZLog

/-- The backend that the model of the whole runs on. -/
abbrev Store := RAMBackend Fbs.View

/-! ## Views -/

/-- The views of the log, oldest first. -/
def viewsOf (u : Uuid) (b : Store) : List View :=
  match b.objects.lookup u.hoid with
  | some (.projection proj) =>
    proj.projections.toList.filterMap (fun kv => (View.decode kv.2).toOption)
  | _ => []

/-- The epoch of the latest view. -/
def latestEpoch (u : Uuid) (b : Store) : Nat := (viewsOf u b).length

/-- Some stored view maps position `p` to object `index` of stripe `stripe`. -/
def Mapped (vs : List View) (p stripe index : Nat) : Prop :=
  ∃ v ∈ vs, ∃ last, v.objectMap.map p = .ok (some (Stripe.oidAt stripe index), last)

/-- A mapped position stays mapped where it is. -/
theorem Mapped.mono {vs vs' : List View} {p s i : Nat} (h : Mapped vs p s i)
    (hp : vs <+: vs') : Mapped vs' p s i := by
  obtain ⟨v, hv, last, hm⟩ := h
  exact ⟨v, hp.subset hv, last, hm⟩

/-- With a layout, the object of a mapped position is arithmetic on the position. -/
theorem Mapped.layout {vs : List View} {L : Layout} {p s i : Nat} (h : Mapped vs p s i)
    (hL : ∀ v ∈ vs, v.objectMap.HasLayout L v.objectMap.nextStripeId) :
    s = p / L.size ∧ i = p % L.width := by
  obtain ⟨v, hv, last, hm⟩ := h
  obtain ⟨-, -, hoid, -⟩ := (hL v hv).map_some hm
  exact oidAt_injective hoid

/-- A position is mapped to one object by all views. -/
theorem Mapped.unique {vs : List View} (hvs : HistoryOk vs) {p s i s' i' : Nat}
    (h : Mapped vs p s i) (h' : Mapped vs p s' i') : s = s' ∧ i = i' := by
  obtain ⟨L, hL⟩ := hvs.layout
  obtain ⟨h₁, h₂⟩ := h.layout hL
  obtain ⟨h₁', h₂'⟩ := h'.layout hL
  exact ⟨h₁.trans h₁'.symm, h₂.trans h₂'.symm⟩

/-! ## Data objects -/

/-- The name of a data object. -/
def dataOid (u : Uuid) (stripe index : Nat) : String := Oid.name ⟨u, stripe, index⟩

/-- A data object. -/
def objectAt (u : Uuid) (b : Store) (stripe index : Nat) : Option LogObject :=
  b.logAt (dataOid u stripe index)

/-- The stored epoch of a data object, 0 before it exists. -/
def objectEpoch (u : Uuid) (b : Store) (stripe index : Nat) : Nat :=
  b.epochAt (dataOid u stripe index)

/-- The state of a log position, found through the latest view. -/
def positionSlot (u : Uuid) (b : Store) (p : Nat) : Slot :=
  match (viewsOf u b).getLast? with
  | none => .unwritten
  | some v =>
    match v.objectMap.map p with
    | .ok (some oid, _) => b.slotAt (u.pfx ++ "." ++ oid) p
    | _ => .unwritten

/-- The name of an object tells its stripe and its place in it. -/
theorem dataOid_injective {u : Uuid} {s i s' i' : Nat} (h : dataOid u s i = dataOid u s' i') :
    s = s' ∧ i = i' := by
  have := Oid.name_injective h
  simpa using this

/-- Objects have names. -/
theorem dataOid_ne_empty (u : Uuid) (s i : Nat) : dataOid u s i ≠ "" := Oid.name_ne_empty _

/-- An object is not the head object. -/
theorem dataOid_ne_hoid (u : Uuid) (s i : Nat) : dataOid u s i ≠ u.hoid :=
  (u.hoid_ne_oid _).symm

/-- An object is not a link. -/
theorem dataOid_ne_link (u : Uuid) (s i : Nat) (name : String) :
    dataOid u s i ≠ "head." ++ name := by
  have h := link_ne_key name (.object ⟨u, s, i⟩)
  rw [Key.object_name] at h
  exact h

/-! ## The invariant -/

/-- The log is stored under its name. -/
structure HeadOk (u : Uuid) (name : String) (b : Store) : Prop where
  head : ∃ proj blobs, b.objects.lookup u.hoid = some (.projection proj) ∧ proj.pfx = u.pfx ∧
    proj.epoch = blobs.length ∧ proj.projections.toList = Lib.OrderedMap.numbered 1 blobs ∧
    blobs.map View.decode = (viewsOf u b).map .ok
  link : name ≠ "" ∧ b.objects.lookup ("head." ++ name) = some (.link u.hoid)

/-- What holds of a data object, given the views. -/
structure ObjectOk (vs : List View) (stripe index : Nat) (o : LogObject) : Prop where
  epoch_pos : 0 < o.epoch
  /-- Only the epoch that is being proposed is ahead of the views. -/
  epoch_le : o.epoch ≤ vs.length + 1
  mapped : ∀ p ∈ o.entries, Mapped vs p stripe index
  bounded : ∀ p ∈ o.entries, p ≤ o.maxpos
  /-- A trim limit reaches into the stripe. -/
  limit : ∀ l, o.trimLimit = some l →
    ∃ v ∈ vs, ∃ s, v.objectMap.stripeById stripe = .ok s ∧ s.minPosition ≤ l

/-- The objects of the view that hold positions from `top` on are sealed for epoch `e`. -/
def SeedSealed (u : Uuid) (b : Store) (e : Nat) (v : View) (top : Nat) : Prop :=
  ∀ p s i last, top ≤ p → v.objectMap.map p = .ok (some (Stripe.oidAt s i), last) →
    e ≤ objectEpoch u b s i

/-- `top` is 0, or one past what an object answers that is sealed for an epoch after `e`. -/
def TopAt (u : Uuid) (b : Store) (e top : Nat) : Prop :=
  ∀ x, top = x + 1 → ∃ s i o, e < objectEpoch u b s i ∧ objectAt u b s i = some o ∧
    o.maxPos = some x

/-- The invariant of the stored log. -/
structure LogOk (u : Uuid) (name : String) (b : Store) : Prop where
  stores : b.blackhole = false
  head : HeadOk u name b
  history : HistoryOk (viewsOf u b)
  kinds : ∀ s i, b.objects.lookup (dataOid u s i) = none ∨
    ∃ o, b.objects.lookup (dataOid u s i) = some (.log o)
  object : ∀ s i o, objectAt u b s i = some o → ObjectOk (viewsOf u b) s i o

/-! ## The order -/

/-- The stored log grows from `b` to `b'`. -/
structure Grows (u : Uuid) (b b' : Store) : Prop where
  views : viewsOf u b <+: viewsOf u b'
  epoch : ∀ s i, objectEpoch u b s i ≤ objectEpoch u b' s i
  slot : ∀ s i p, Slot.Le (b.slotAt (dataOid u s i) p) (b'.slotAt (dataOid u s i) p)
  limit : ∀ s i o p, objectAt u b s i = some o → o.belowTrimLimit p = true →
    ∃ o', objectAt u b' s i = some o' ∧ o'.belowTrimLimit p = true
  /-- An object whose epoch is ahead of the views keeps its content. -/
  frozen : ∀ s i o, objectAt u b s i = some o → latestEpoch u b' < o.epoch →
    ∃ o', objectAt u b' s i = some o' ∧ o'.entries = o.entries ∧ o'.trimLimit = o.trimLimit ∧
      o'.maxpos = o.maxpos

/-- Nothing has happened. -/
theorem Grows.refl (u : Uuid) (b : Store) : Grows u b b where
  views := List.prefix_refl _
  epoch _ _ := le_refl _
  slot _ _ _ := .refl _
  limit _ _ o _ ho hb := ⟨o, ho, hb⟩
  frozen _ _ o ho _ := ⟨o, ho, rfl, rfl, rfl⟩

/-- The latest epoch only rises. -/
theorem Grows.latest_le {u : Uuid} {b b' : Store} (h : Grows u b b') :
    latestEpoch u b ≤ latestEpoch u b' := h.views.length_le

/-- The epoch of an object that is there. -/
theorem objectEpoch_of_objectAt {u : Uuid} {b : Store} {s i : Nat} {o : LogObject}
    (h : objectAt u b s i = some o) : objectEpoch u b s i = o.epoch :=
  RAMBackend.epochAt_of_logAt h

/-- The log grows over several steps as it does over one. -/
theorem Grows.trans {u : Uuid} {b₁ b₂ b₃ : Store} (h₁ : Grows u b₁ b₂) (h₂ : Grows u b₂ b₃) :
    Grows u b₁ b₃ where
  views := h₁.views.trans h₂.views
  epoch s i := le_trans (h₁.epoch s i) (h₂.epoch s i)
  slot s i p := (h₁.slot s i p).trans (h₂.slot s i p)
  limit s i o p ho hb := by
    obtain ⟨o', ho', hb'⟩ := h₁.limit s i o p ho hb
    exact h₂.limit s i o' p ho' hb'
  frozen s i o ho hlt := by
    obtain ⟨o', ho', he, hl, hm⟩ := h₁.frozen s i o ho (lt_of_le_of_lt h₂.latest_le hlt)
    have hep := h₁.epoch s i
    rw [objectEpoch_of_objectAt ho, objectEpoch_of_objectAt ho'] at hep
    obtain ⟨o'', ho'', he', hl', hm'⟩ := h₂.frozen s i o' ho' (lt_of_lt_of_le hlt hep)
    exact ⟨o'', ho'', he'.trans he, hl'.trans hl, hm'.trans hm⟩

end ZLog
