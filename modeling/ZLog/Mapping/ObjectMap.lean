import ZLog.Mapping.Stripe
import ZLog.Lib.OrderedMap

/-!
# The object map

An object map assigns log positions to objects through a sequence of `MultiStripe`s, indexed by
their first position.  The constructor's assertion `valid()` is a field.
-/

namespace ZLog

/-- The options of a log client that the modelled code reads. -/
structure Options where
  errorIfExists : Bool := false
  createInitialViewStripes : Bool := true
  initStripeOnCreate : Bool := true
  stripeWidth : Nat := 10
  stripeSlots : Nat := 5
  deriving DecidableEq

abbrev StripeMap := Lib.OrderedMap Nat MultiStripe

namespace ObjectMap

/-- The secondary index by stripe id. -/
def indexById (stripes : StripeMap) : StripeMap :=
  stripes.toList.foldl (fun byId s => byId.emplace s.2.baseId s.2) .empty

/-- Adjacent entries continue one another in positions and in stripe ids. -/
def adjacent : List (Nat × MultiStripe) → Bool
  | prev :: next :: rest =>
    decide (prev.2.maxPosition + 1 = next.1 ∧ prev.2.maxStripeId + 1 = next.2.baseId) &&
      adjacent (next :: rest)
  | _ => true

/-- `valid()`. -/
def isValid (nextStripeId : Nat) (stripes : StripeMap) : Bool :=
  decide (stripes.toList.map (fun s => s.2.baseId)).Nodup &&
  stripes.toList.all (fun s => s.1 = s.2.minPosition) &&
  (match stripes.last? with
    | some last => decide (nextStripeId = last.2.maxStripeId + 1)
    | none => decide (nextStripeId = 0)) &&
  (match stripes.first? with
    | some first => decide (first.1 = 0 ∧ first.2.baseId = 0)
    | none => true) &&
  adjacent stripes.toList

end ObjectMap

structure ObjectMap where
  nextStripeId : Nat
  stripes : StripeMap
  minValidPosition : Nat
  valid : ObjectMap.isValid nextStripeId stripes = true
  deriving DecidableEq

namespace ObjectMap

/-- The constructor. -/
def new (nextStripeId : Nat) (stripes : StripeMap) (minValidPosition : Nat) :
    Except Fault ObjectMap :=
  if h : isValid nextStripeId stripes = true then
    .ok ⟨nextStripeId, stripes, minValidPosition, h⟩
  else .error .assertion

def empty (m : ObjectMap) : Bool := m.stripes.isEmpty

def numStripes (m : ObjectMap) : Nat := m.nextStripeId

def stripeById (m : ObjectMap) (stripeId : Nat) : Except Fault Stripe :=
  match (indexById m.stripes).floor? stripeId with
  | none => .error .assertion
  | some (_, s) => if stripeId ≤ s.maxStripeId then s.stripeById stripeId else .error .assertion

/-- The entry that may map a position, and the id of the stripe the position falls in; `none`
    when the position is past the entry. -/
def findStripe (m : ObjectMap) (position : Nat) : Except Fault (Option (Nat × MultiStripe × Nat)) :=
  if m.stripes.isEmpty then .ok none
  else
    match m.stripes.floor? position with
    | none => .error .assertion
    | some (first, s) =>
      if position ≤ s.maxPosition then
        let stripePos := position - first
        let stripeSize := mulUInt32 s.width s.slots
        if stripeSize = 0 then .error .divideByZero
        else .ok (some (first, s, s.baseId + stripePos / stripeSize))
      else .ok none

def mapStripe (m : ObjectMap) (position : Nat) : Except Fault (Option Stripe) :=
  match m.findStripe position with
  | .error f => .error f
  | .ok none => .ok none
  | .ok (some (_, _, stripeId)) =>
    match m.stripeById stripeId with
    | .error f => .error f
    | .ok stripe => .ok (some stripe)

/-- The object that maps the position, if any, and whether it is in the last stripe. -/
def map (m : ObjectMap) (position : Nat) : Except Fault (Option String × Bool) :=
  match m.findStripe position with
  | .error f => .error f
  | .ok none => .ok (none, false)
  | .ok (some (first, s, stripeId)) =>
    match s.map stripeId position with
    | .error f => .error f
    | .ok oid =>
      let lastStripe := (m.stripes.last?.map Prod.fst = some first) && stripeId = s.maxStripeId
      .ok (some oid, lastStripe)

/-- The objects of one stripe that hold positions up to `position`, each with a flag that says
    whether all its positions are. -/
def mapToObjects (stripe : Stripe) (position : Nat) : List (String × Bool) :=
  let minPosBase := stripe.minPosition
  let maxPosBase := stripe.maxPosition - (stripe.width - 1)
  (List.range stripe.width).filterMap fun i =>
    if maxPosBase + i ≤ position then some (Stripe.oidAt stripe.stripeId i, true)
    else if minPosBase + i ≤ position then some (Stripe.oidAt stripe.stripeId i, false)
    else none

/-- What one call of `map_to` returns. -/
inductive MapTo where
  /-- The position is not mapped. -/
  | unmapped
  | done
  /-- Objects to visit; `stripe_id` was advanced. -/
  | objects (objects : List (String × Bool)) (stripeId : Nat)
  deriving DecidableEq

/-- One step of the iteration over the objects that map positions up to `position`. -/
def mapTo (m : ObjectMap) (position stripeId : Nat) : Except Fault MapTo :=
  match m.map position with
  | .error f => .error f
  | .ok (none, _) => .ok .unmapped
  | .ok (some _, _) =>
    if m.numStripes ≤ stripeId then .ok .done
    else
      match m.stripeById stripeId with
      | .error f => .error f
      | .ok stripe =>
        if position < stripe.minPosition then .ok (.objects [] (stripeId + 1))
        else .ok (.objects (mapToObjects stripe position) (stripeId + 1))

/-- One round of the loop of `expand_mapping`: the stripes with one more stripe. -/
def addStripe (stripes : StripeMap) (stripeId : Nat) (options : Options) : Except Fault StripeMap :=
  match stripes.last? with
  | some (key, last) =>
    match last.extend with
    | .error f => .error f
    | .ok newStripe =>
      if newStripe.minPosition = key ∧ newStripe.maxStripeId = stripeId then
        .ok ((stripes.erase key).emplace newStripe.minPosition newStripe)
      else .error .assertion
  | none =>
    let width := options.stripeWidth
    let slots := options.stripeSlots
    -- `width * slots - 1` in `uint32_t`
    let maxPosition := (mulUInt32 width slots + 2 ^ 32 - 1) % 2 ^ 32
    match MultiStripe.new stripeId width slots 0 1 maxPosition with
    | .error f => .error f
    | .ok newStripe =>
      if stripeId = 0 then .ok (stripes.emplace 0 newStripe) else .error .assertion

/-- The loop of `expand_mapping`.  Every round maps at least one more position, so `fuel` rounds
    suffice when they exceed the position (`expandMapping_spec`). -/
def expandLoop (options : Options) (position minValidPosition : Nat) :
    Nat → Nat → StripeMap → Except Fault ObjectMap
  | 0, _, _ => .error .outOfFuel
  | fuel + 1, nextStripeId, stripes =>
    match addStripe stripes nextStripeId options with
    | .error f => .error f
    | .ok stripes' =>
      match new (nextStripeId + 1) stripes' minValidPosition with
      | .error f => .error f
      | .ok m =>
        match m.map position with
        | .error f => .error f
        | .ok (some _, _) => .ok m
        | .ok (none, _) =>
          expandLoop options position minValidPosition fuel (nextStripeId + 1) stripes'

/-- A map that maps the position too; `none` when it is mapped already. -/
def expandMapping (m : ObjectMap) (position : Nat) (options : Options) :
    Except Fault (Option ObjectMap) :=
  match m.map position with
  | .error f => .error f
  | .ok (some _, _) => .ok none
  | .ok (none, _) =>
    match expandLoop options position m.minValidPosition (position + 1) m.nextStripeId
        m.stripes with
    | .error f => .error f
    | .ok m' => .ok (some m')

/-- A map with a strictly larger minimum valid position. -/
def advanceMinValidPosition (m : ObjectMap) (position : Nat) : Option ObjectMap :=
  if position ≤ m.minValidPosition then none
  else some { m with minValidPosition := position }

/-- The maximum mapped position; undefined (0 here) on an empty map. -/
def maxPosition (m : ObjectMap) : Nat :=
  match m.stripes.last? with
  | some (_, s) => s.maxPosition
  | none => 0

end ObjectMap

end ZLog
