import ZLog.Mapping.Stripe
import ZLog.Lib.OrderedMap
import Mathlib.Order.Nat

/-!
# The mapping code at its integer widths

The same functions over `UInt32` and `UInt64`: `width` and `slots` have 32 bits and so does their
product where the source does not cast, positions and stripe ids have 64, and every operation wraps.
The constructor's assertions are evaluated with the same wrapping operations.
-/

namespace ZLog.Machine

/-- Positions are compared as numbers. -/
instance linearOrderUInt64 : LinearOrder UInt64 where
  le_refl := UInt64.le_refl
  le_trans _ _ _ := UInt64.le_trans
  le_antisymm _ _ := UInt64.le_antisymm
  le_total := UInt64.le_total
  lt_iff_le_not_ge a b := by
    rw [UInt64.not_le]
    constructor
    · intro h
      exact ⟨UInt64.le_of_lt h, h⟩
    · intro h
      exact h.2
  toDecidableLE := inferInstance
  toDecidableLT := inferInstance
  toDecidableEq := inferInstance

/-- The options that the map reads. -/
structure Options where
  createInitialViewStripes : Bool
  stripeWidth : UInt32
  stripeSlots : UInt32
  deriving DecidableEq

/-! ## Stripes -/

/-- One stripe, with the assertions of its constructor. -/
structure Stripe where
  stripeId : UInt64
  width : UInt32
  minPosition : UInt64
  maxPosition : UInt64
  width_pos : 0 < width
  min_pos : if 0 < stripeId then 0 < minPosition else minPosition = 0
  min_le_max : minPosition ≤ maxPosition
  width_le : minPosition + width.toUInt64 - 1 ≤ maxPosition
  width_dvd : (maxPosition - minPosition + 1) % width.toUInt64 = 0
  deriving DecidableEq

namespace Stripe

/-- The constructor. -/
def new (stripeId : UInt64) (width : UInt32) (minPosition maxPosition : UInt64) :
    Except Fault Stripe :=
  if h : 0 < width ∧ (if 0 < stripeId then 0 < minPosition else minPosition = 0) ∧
      minPosition ≤ maxPosition ∧ minPosition + width.toUInt64 - 1 ≤ maxPosition ∧
      (maxPosition - minPosition + 1) % width.toUInt64 = 0 then
    .ok ⟨stripeId, width, minPosition, maxPosition, h.1, h.2.1, h.2.2.1, h.2.2.2.1, h.2.2.2.2⟩
  else .error .assertion

/-- `make_oid(stripe_id, width, position)`: the index is narrowed to `uint32_t`. -/
def makeOid (stripeId : UInt64) (width : UInt32) (position : UInt64) : String :=
  ZLog.Stripe.oidAt stripeId.toNat (position % width.toUInt64).toUInt32.toNat

end Stripe

/-- A run of stripes, with the assertions of its constructor. -/
structure MultiStripe where
  baseId : UInt64
  width : UInt32
  slots : UInt32
  minPosition : UInt64
  instances : UInt64
  maxPosition : UInt64
  width_pos : 0 < width
  slots_pos : 0 < slots
  instances_pos : 0 < instances
  min_pos : if 0 < baseId then 0 < minPosition else minPosition = 0
  min_le_max : minPosition ≤ maxPosition
  max_eq : maxPosition = minPosition + instances * width.toUInt64 * slots.toUInt64 - 1
  deriving DecidableEq

namespace MultiStripe

/-- The constructor. -/
def new (baseId : UInt64) (width slots : UInt32) (minPosition instances maxPosition : UInt64) :
    Except Fault MultiStripe :=
  if h : 0 < width ∧ 0 < slots ∧ 0 < instances ∧
      (if 0 < baseId then 0 < minPosition else minPosition = 0) ∧ minPosition ≤ maxPosition ∧
      maxPosition = minPosition + instances * width.toUInt64 * slots.toUInt64 - 1 then
    .ok ⟨baseId, width, slots, minPosition, instances, maxPosition, h.1, h.2.1, h.2.2.1,
      h.2.2.2.1, h.2.2.2.2.1, h.2.2.2.2.2⟩
  else .error .assertion

/-- Wraps like the source does. -/
def maxStripeId (m : MultiStripe) : UInt64 := m.baseId + m.instances - 1

/-- The object that a position of the given stripe maps to. -/
def map (m : MultiStripe) (stripeId position : UInt64) : Except Fault String :=
  if m.baseId ≤ stripeId ∧ stripeId ≤ m.maxStripeId ∧ m.minPosition ≤ position ∧
      position ≤ m.maxPosition then
    .ok (Stripe.makeOid stripeId m.width position)
  else .error .assertion

/-- One more adjacent stripe; the product is cast to 64 bits here. -/
def extend (m : MultiStripe) : Except Fault MultiStripe :=
  new m.baseId m.width m.slots m.minPosition (m.instances + 1)
    (m.maxPosition + m.width.toUInt64 * m.slots.toUInt64)

/-- The positions of one stripe of the run. -/
def stripeById (m : MultiStripe) (stripeId : UInt64) : Except Fault Stripe :=
  let stripeOffset := stripeId - m.baseId
  let entriesPerStripe := m.width.toUInt64 * m.slots.toUInt64
  let minPos := m.minPosition + stripeOffset * entriesPerStripe
  let maxPos := minPos + entriesPerStripe - 1
  if m.baseId ≤ stripeId ∧ stripeId ≤ m.maxStripeId ∧ stripeOffset < m.instances ∧
      0 < entriesPerStripe ∧ m.minPosition ≤ minPos ∧ maxPos ≤ m.maxPosition then
    Stripe.new stripeId m.width minPos maxPos
  else .error .assertion

/-- The constructor's assertions in exact integer arithmetic. -/
def Exact (m : MultiStripe) : Prop :=
  0 < m.width.toNat ∧ 0 < m.slots.toNat ∧ 0 < m.instances.toNat ∧
    (if 0 < m.baseId.toNat then 0 < m.minPosition.toNat else m.minPosition.toNat = 0) ∧
    m.minPosition.toNat ≤ m.maxPosition.toNat ∧
    m.maxPosition.toNat =
      m.minPosition.toNat + m.instances.toNat * m.width.toNat * m.slots.toNat - 1

instance (m : MultiStripe) : Decidable m.Exact := by
  unfold Exact
  infer_instance

end MultiStripe

/-! ## The object map -/

/-- `std::map` from first positions to runs. -/
abbrev StripeMap := Lib.OrderedMap UInt64 MultiStripe

namespace ObjectMap

/-- The secondary index by stripe id. -/
def indexById (stripes : StripeMap) : StripeMap :=
  stripes.toList.foldl (fun byId s => byId.emplace s.2.baseId s.2) .empty

/-- Neighbours leave no gap, neither in positions nor in ids. -/
def adjacent : List (UInt64 × MultiStripe) → Bool
  | prev :: next :: rest =>
    decide (prev.2.maxPosition + 1 = next.1 ∧ prev.2.maxStripeId + 1 = next.2.baseId) &&
      adjacent (next :: rest)
  | _ => true

/-- `valid()`. -/
def isValid (nextStripeId : UInt64) (stripes : StripeMap) : Bool :=
  decide (stripes.toList.map (fun s => s.2.baseId)).Nodup &&
  stripes.toList.all (fun s => s.1 = s.2.minPosition) &&
  (match stripes.last? with
    | some last => decide (nextStripeId = last.2.maxStripeId + 1)
    | none => decide (nextStripeId = 0)) &&
  (match stripes.first? with
    | some first => decide (first.1 = 0 ∧ first.2.baseId = 0)
    | none => true) &&
  adjacent stripes.toList

end ObjectMap

/-- The map with everything that its constructor asserts. -/
structure ObjectMap where
  nextStripeId : UInt64
  stripes : StripeMap
  minValidPosition : UInt64
  valid : ObjectMap.isValid nextStripeId stripes = true
  deriving DecidableEq

namespace ObjectMap

/-- The constructor. -/
def new (nextStripeId : UInt64) (stripes : StripeMap) (minValidPosition : UInt64) :
    Except Fault ObjectMap :=
  if h : isValid nextStripeId stripes = true then
    .ok ⟨nextStripeId, stripes, minValidPosition, h⟩
  else .error .assertion

/-- The run is found through the ids. -/
def stripeById (m : ObjectMap) (stripeId : UInt64) : Except Fault Stripe :=
  match (indexById m.stripes).floor? stripeId with
  | none => .error .assertion
  | some (_, s) => if stripeId ≤ s.maxStripeId then s.stripeById stripeId else .error .assertion

/-- The entry that may map a position, and the id of the stripe the position falls in. -/
def findStripe (m : ObjectMap) (position : UInt64) :
    Except Fault (Option (UInt64 × MultiStripe × UInt64)) :=
  if m.stripes.isEmpty then .ok none
  else
    match m.stripes.floor? position with
    | none => .error .assertion
    | some (first, s) =>
      if position ≤ s.maxPosition then
        let stripePos := position - first
        -- a 32-bit product
        let stripeSize := s.width * s.slots
        if stripeSize = 0 then .error .divideByZero
        else .ok (some (first, s, s.baseId + stripePos / stripeSize.toUInt64))
      else .ok none

/-- The stripe of a position, if it is mapped. -/
def mapStripe (m : ObjectMap) (position : UInt64) : Except Fault (Option Stripe) :=
  match m.findStripe position with
  | .error f => .error f
  | .ok none => .ok none
  | .ok (some (_, _, stripeId)) =>
    match m.stripeById stripeId with
    | .error f => .error f
    | .ok stripe => .ok (some stripe)

/-- The object that maps the position, if any, and whether it is in the last stripe. -/
def map (m : ObjectMap) (position : UInt64) : Except Fault (Option String × Bool) :=
  match m.findStripe position with
  | .error f => .error f
  | .ok none => .ok (none, false)
  | .ok (some (first, s, stripeId)) =>
    match s.map stripeId position with
    | .error f => .error f
    | .ok oid =>
      let lastStripe := (m.stripes.last?.map Prod.fst = some first) && stripeId = s.maxStripeId
      .ok (some oid, lastStripe)

/-- The stripes that a round of the loop of `expand_mapping` leaves. -/
def addStripe (stripes : StripeMap) (stripeId : UInt64) (options : Options) :
    Except Fault StripeMap :=
  match stripes.last? with
  | some (key, last) =>
    match last.extend with
    | .error f => .error f
    | .ok newStripe =>
      if newStripe.minPosition = key ∧ newStripe.maxStripeId = stripeId then
        .ok ((stripes.erase key).emplace newStripe.minPosition newStripe)
      else .error .assertion
  | none =>
    let width := options.stripeWidth
    let slots := options.stripeSlots
    -- computed in 32 bits, then widened
    let maxPosition := (width * slots - 1).toUInt64
    match MultiStripe.new stripeId width slots 0 1 maxPosition with
    | .error f => .error f
    | .ok newStripe =>
      if stripeId = 0 then .ok (stripes.emplace 0 newStripe) else .error .assertion

/-- One round of the loop of `expand_mapping`: the map that it builds and tests for the position. -/
def expandRound (m : ObjectMap) (options : Options) : Except Fault ObjectMap :=
  match addStripe m.stripes m.nextStripeId options with
  | .error f => .error f
  | .ok stripes => new (m.nextStripeId + 1) stripes m.minValidPosition

/-- The last position that is mapped. -/
def maxPosition (m : ObjectMap) : UInt64 :=
  match m.stripes.last? with
  | some (_, s) => s.maxPosition
  | none => 0

end ObjectMap

/-- The object map of `View::create_initial`; encoding and decoding it changes no field. -/
def createInitial (options : Options) : Except Fault ObjectMap :=
  if options.createInitialViewStripes then
    match MultiStripe.new 0 options.stripeWidth options.stripeSlots 0 1
        (options.stripeWidth * options.stripeSlots - 1).toUInt64 with
    | .error f => .error f
    | .ok stripe => ObjectMap.new 1 (.singleton 0 stripe) 0
  else ObjectMap.new 0 .empty 0

/-! ## The maps that clients build -/

/-- What the mapping code builds when the given positions are passed to operations.  A round of the
    loop depends on the map alone, so the maps inside a loop need no separate state. -/
inductive Built (options : Options) (positions : List UInt64) : Except Fault ObjectMap → Prop
  | create : Built options positions (createInitial options)
  /-- A position that is not mapped: another round of `expand_mapping(position)`. -/
  | expand {m : ObjectMap} {p : UInt64} : Built options positions (.ok m) → p ∈ positions →
      m.map p = .ok (none, false) → Built options positions (m.expandRound options)
  /-- A position in the last stripe: `ViewManager::map` has the next stripe mapped, by
      `expand_mapping(max_position + 1)`. -/
  | ahead {m : ObjectMap} {p : UInt64} {oid : String} : Built options positions (.ok m) →
      p ∈ positions → m.map p = .ok (some oid, true) →
      m.map (m.maxPosition + 1) = .ok (none, false) →
      Built options positions (m.expandRound options)

end ZLog.Machine
