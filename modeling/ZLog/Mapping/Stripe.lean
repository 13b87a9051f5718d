import Mathlib.Algebra.Group.Nat.Defs
import Mathlib.Data.List.Basic
import Mathlib.Order.Nat

/-!
# Stripes

A stripe is a contiguous range of positions laid out over `width` objects; a `MultiStripe`
stands for a run of adjacent stripes with the same configuration.  The assertions of the two
constructors are fields here, so a value that the source could not construct does not exist,
and the constructor functions return a fault where the source aborts.

Positions and stripe ids are natural numbers (below the 64-bit wrap).  The only 32-bit
arithmetic is the product `width * slots` where the source computes it in `uint32_t`.
-/

namespace ZLog

/-- The ways the client process dies inside the mapping code. -/
inductive Fault where
  | assertion
  | divideByZero
  /-- Not an outcome of the source: a loop of the model ran out of rounds. -/
  | outOfFuel
  deriving DecidableEq, Repr

/-- `uint32_t` product. -/
def mulUInt32 (m n : Nat) : Nat := m * n % 2 ^ 32

/-! ## One stripe -/

/-- One stripe, with the assertions of its constructor. -/
structure Stripe where
  stripeId : Nat
  width : Nat
  minPosition : Nat
  maxPosition : Nat
  width_pos : 0 < width
  min_pos : if 0 < stripeId then 0 < minPosition else minPosition = 0
  min_le_max : minPosition ≤ maxPosition
  width_le : minPosition + width - 1 ≤ maxPosition
  width_dvd : (maxPosition - minPosition + 1) % width = 0
  deriving DecidableEq

namespace Stripe

/-- `make_oid(stripe_id, index)` -/
def oidAt (stripeId index : Nat) : String := toString stripeId ++ "." ++ toString index

/-- `make_oid(stripe_id, width, position)` -/
def makeOid (stripeId width position : Nat) : String := oidAt stripeId (position % width)

/-- The names of the stripe's objects. -/
def makeOids (stripeId width : Nat) : List String := (List.range width).map (oidAt stripeId)

/-- The constructor. -/
def new (stripeId width minPosition maxPosition : Nat) : Except Fault Stripe :=
  if h : 0 < width ∧ (if 0 < stripeId then 0 < minPosition else minPosition = 0) ∧
      minPosition ≤ maxPosition ∧ minPosition + width - 1 ≤ maxPosition ∧
      (maxPosition - minPosition + 1) % width = 0 then
    .ok ⟨stripeId, width, minPosition, maxPosition, h.1, h.2.1, h.2.2.1, h.2.2.2.1, h.2.2.2.2⟩
  else .error .assertion

/-- `oids()`, precomputed by the constructor. -/
def oids (s : Stripe) : List String := makeOids s.stripeId s.width

end Stripe

/-! ## Runs of stripes -/

/-- A run of stripes, with the assertions of its constructor. -/
structure MultiStripe where
  baseId : Nat
  width : Nat
  slots : Nat
  minPosition : Nat
  instances : Nat
  maxPosition : Nat
  width_pos : 0 < width
  slots_pos : 0 < slots
  instances_pos : 0 < instances
  min_pos : if 0 < baseId then 0 < minPosition else minPosition = 0
  min_le_max : minPosition ≤ maxPosition
  max_eq : maxPosition = minPosition + instances * width * slots - 1
  deriving DecidableEq

namespace MultiStripe

/-- The constructor. -/
def new (baseId width slots minPosition instances maxPosition : Nat) : Except Fault MultiStripe :=
  if h : 0 < width ∧ 0 < slots ∧ 0 < instances ∧
      (if 0 < baseId then 0 < minPosition else minPosition = 0) ∧ minPosition ≤ maxPosition ∧
      maxPosition = minPosition + instances * width * slots - 1 then
    .ok ⟨baseId, width, slots, minPosition, instances, maxPosition, h.1, h.2.1, h.2.2.1,
      h.2.2.2.1, h.2.2.2.2.1, h.2.2.2.2.2⟩
  else .error .assertion

/-- The id of the last stripe of the run. -/
def maxStripeId (m : MultiStripe) : Nat := m.baseId + m.instances - 1

/-- The object that a position of the given stripe maps to. -/
def map (m : MultiStripe) (stripeId position : Nat) : Except Fault String :=
  if m.baseId ≤ stripeId ∧ stripeId ≤ m.maxStripeId ∧ m.minPosition ≤ position ∧
      position ≤ m.maxPosition then
    .ok (Stripe.makeOid stripeId m.width position)
  else .error .assertion

/-- One more adjacent stripe. -/
def extend (m : MultiStripe) : Except Fault MultiStripe :=
  new m.baseId m.width m.slots m.minPosition (m.instances + 1) (m.maxPosition + m.width * m.slots)

/-- One stripe of the run, with the assertions that the source makes. -/
def stripeById (m : MultiStripe) (stripeId : Nat) : Except Fault Stripe :=
  let stripeOffset := stripeId - m.baseId
  let entriesPerStripe := m.width * m.slots
  let minPos := m.minPosition + stripeOffset * entriesPerStripe
  let maxPos := minPos + entriesPerStripe - 1
  if m.baseId ≤ stripeId ∧ stripeId ≤ m.maxStripeId ∧ stripeOffset < m.instances ∧
      0 < entriesPerStripe ∧ m.minPosition ≤ minPos ∧ maxPos ≤ m.maxPosition then
    Stripe.new stripeId m.width minPos maxPos
  else .error .assertion

/-- Two runs with the same data are equal: the maximum position follows from the rest, and the
    other fields are proofs. -/
@[ext] theorem ext {m n : MultiStripe} (hb : m.baseId = n.baseId) (hw : m.width = n.width)
    (hs : m.slots = n.slots) (hmin : m.minPosition = n.minPosition)
    (hi : m.instances = n.instances) : m = n := by
  have hmax : m.maxPosition = n.maxPosition := by
    rw [m.max_eq, n.max_eq, hw, hs, hmin, hi]
  cases m
  cases n
  cases hb
  cases hw
  cases hs
  cases hmin
  cases hi
  cases hmax
  rfl

/-- The constructor succeeds exactly when its assertions hold. -/
theorem new_eq_ok {b w s lo i hi : Nat} {m : MultiStripe} :
    new b w s lo i hi = .ok m ↔
      m.baseId = b ∧ m.width = w ∧ m.slots = s ∧ m.minPosition = lo ∧ m.instances = i ∧
        m.maxPosition = hi := by
  unfold new
  constructor
  · intro h
    by_cases hc : 0 < w ∧ 0 < s ∧ 0 < i ∧ (if 0 < b then 0 < lo else lo = 0) ∧ lo ≤ hi ∧
        hi = lo + i * w * s - 1
    · rw [dif_pos hc] at h
      cases h
      exact ⟨rfl, rfl, rfl, rfl, rfl, rfl⟩
    · rw [dif_neg hc] at h
      cases h
  · rintro ⟨rfl, rfl, rfl, rfl, rfl, rfl⟩
    rw [dif_pos ⟨m.width_pos, m.slots_pos, m.instances_pos, m.min_pos, m.min_le_max, m.max_eq⟩]

/-- Extending always succeeds: the new maximum is the one the constructor asserts. -/
theorem extend_ok (m : MultiStripe) :
    ∃ m', m.extend = .ok m' ∧ m'.baseId = m.baseId ∧ m'.width = m.width ∧ m'.slots = m.slots ∧
      m'.minPosition = m.minPosition ∧ m'.instances = m.instances + 1 := by
  have hpos : 0 < m.instances * m.width * m.slots :=
    Nat.mul_pos (Nat.mul_pos m.instances_pos m.width_pos) m.slots_pos
  have hmax : m.maxPosition + m.width * m.slots =
      m.minPosition + (m.instances + 1) * m.width * m.slots - 1 := by
    have hsplit : (m.instances + 1) * m.width * m.slots =
        m.instances * m.width * m.slots + m.width * m.slots := by
      rw [Nat.add_mul, Nat.add_mul, Nat.one_mul]
    have := m.max_eq
    omega
  refine ⟨⟨m.baseId, m.width, m.slots, m.minPosition, m.instances + 1,
    m.maxPosition + m.width * m.slots, m.width_pos, m.slots_pos, Nat.succ_pos _, m.min_pos,
    Nat.le_trans m.min_le_max (Nat.le_add_right _ _), hmax⟩, ?_, rfl, rfl, rfl, rfl, rfl⟩
  exact new_eq_ok.mpr ⟨rfl, rfl, rfl, rfl, rfl, rfl⟩

end MultiStripe

end ZLog
