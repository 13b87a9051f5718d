import ZLog.Mapping.Machine
import Mathlib.Tactic

/-!
# Where the mapping arithmetic wraps

A client that starts from the initial view and expands its map position by position builds exactly
the runs of the first stripes as long as the size of a stripe fits 32 bits and the stripes end
within 64.  The two bounds are also necessary: at `2 ^ 32` positions to a stripe the stripe size
becomes 0 and a lookup divides by it, beyond that the last position of the first stripe is wrong,
and a stripe that ends past `2 ^ 64` gets a wrapped last position.
-/

namespace ZLog.Machine

/-! ## The property -/

namespace MultiStripe

/-- The number of positions of one stripe, as an exact integer. -/
def size (s : MultiStripe) : Nat := s.width.toNat * s.slots.toNat

/-- The position is in the exact range of the `k`-th stripe of the run. -/
def Holds (s : MultiStripe) (k : Nat) (p : UInt64) : Prop :=
  k < s.instances.toNat ∧ s.minPosition.toNat + k * s.size ≤ p.toNat ∧
    p.toNat < s.minPosition.toNat + (k + 1) * s.size

end MultiStripe

namespace ObjectMap

/-- `map` and `map_stripe` select the stripe whose exact range contains the position, and none when
    there is no such stripe. -/
def Selects (m : ObjectMap) (p : UInt64) : Prop :=
  (∃ x ∈ m.stripes.toList, ∃ k stripe last, x.2.Holds k p ∧
    m.mapStripe p = .ok (some stripe) ∧ stripe.stripeId.toNat = x.2.baseId.toNat + k ∧
    stripe.width = x.2.width ∧
    stripe.minPosition.toNat = x.2.minPosition.toNat + k * x.2.size ∧
    stripe.maxPosition.toNat + 1 = x.2.minPosition.toNat + (k + 1) * x.2.size ∧
    m.map p = .ok (some (ZLog.Stripe.oidAt (x.2.baseId.toNat + k) (p.toNat % x.2.width.toNat)),
      last)) ∨
  ((∀ x ∈ m.stripes.toList, ∀ k, ¬ x.2.Holds k p) ∧ m.mapStripe p = .ok none ∧
    m.map p = .ok (none, false))

end ObjectMap

/-- Everything the mapping code builds is exact, and looking up a position in it selects the right
    stripe. -/
def NoWrap (options : Options) (positions : List UInt64) : Prop :=
  ∀ r, Built options positions r → ∃ m, r = .ok m ∧ (∀ x ∈ m.stripes.toList, x.2.Exact) ∧
    ∀ p, m.Selects p

/-- The size of a stripe under the options, as an exact integer. -/
def Options.size (options : Options) : Nat := options.stripeWidth.toNat * options.stripeSlots.toNat

/-- A run of `k` stripes from position 0, in exact integers. -/
structure MultiStripe.StartedBy (s : MultiStripe) (options : Options) (k : Nat) : Prop where
  baseId : s.baseId = 0
  width : s.width = options.stripeWidth
  slots : s.slots = options.stripeSlots
  minPosition : s.minPosition = 0
  instances : s.instances.toNat = k
  maxPosition : s.maxPosition.toNat + 1 = k * options.size

/-- The map of exactly the first `k` stripes. -/
inductive ObjectMap.Run (options : Options) : Nat → ObjectMap → Prop
  | empty {m : ObjectMap} : m.stripes.toList = [] → m.nextStripeId.toNat = 0 →
      ObjectMap.Run options 0 m
  | stripes {m : ObjectMap} {s : MultiStripe} {k : Nat} : m.stripes.toList = [(0, s)] →
      s.StartedBy options (k + 1) → m.nextStripeId.toNat = k + 1 → ObjectMap.Run options (k + 1) m

section Run

variable {options : Options} {m m' : ObjectMap} {s : MultiStripe} {k : Nat}

/-- The product of two 32-bit numbers fits 64 bits. -/
theorem toNat_size (w s : UInt32) : (w.toUInt64 * s.toUInt64).toNat = w.toNat * s.toNat := by
  have hw := w.toNat_lt
  have hs := s.toNat_lt
  have hlt : w.toNat * s.toNat < 2 ^ 32 * 2 ^ 32 := Nat.mul_lt_mul'' hw hs
  rw [UInt64.toNat_mul, UInt32.toNat_toUInt64, UInt32.toNat_toUInt64]
  exact Nat.mod_eq_of_lt (by omega)

/-- The 32-bit product is exact when the size of a stripe fits 32 bits. -/
theorem toNat_stripeSize {w s : UInt32} (h : w.toNat * s.toNat < 2 ^ 32) :
    (w * s).toUInt64.toNat = w.toNat * s.toNat := by
  rw [UInt32.toNat_toUInt64, UInt32.toNat_mul]
  exact Nat.mod_eq_of_lt h

theorem MultiStripe.new_eq_ok {b lo i hi : UInt64} {w s : UInt32} {m : MultiStripe} :
    MultiStripe.new b w s lo i hi = .ok m ↔
      m.baseId = b ∧ m.width = w ∧ m.slots = s ∧ m.minPosition = lo ∧ m.instances = i ∧
        m.maxPosition = hi := by
  unfold MultiStripe.new
  constructor
  · intro h
    by_cases hc : 0 < w ∧ 0 < s ∧ 0 < i ∧ (if 0 < b then 0 < lo else lo = 0) ∧ lo ≤ hi ∧
        hi = lo + i * w.toUInt64 * s.toUInt64 - 1
    · rw [dif_pos hc] at h
      cases h
      exact ⟨rfl, rfl, rfl, rfl, rfl, rfl⟩
    · rw [dif_neg hc] at h
      cases h
  · rintro ⟨rfl, rfl, rfl, rfl, rfl, rfl⟩
    rw [dif_pos ⟨m.width_pos, m.slots_pos, m.instances_pos, m.min_pos, m.min_le_max, m.max_eq⟩]

/-- The constructor accepts the exact run of `k` stripes from position 0, also when it ends at the
    last position of all. -/
theorem MultiStripe.new_startedBy {i hi : UInt64} (hpos : 0 < options.size) (hk : 0 < k)
    (hi' : i.toNat = k) (hmax : hi.toNat + 1 = k * options.size) :
    ∃ s, MultiStripe.new 0 options.stripeWidth options.stripeSlots 0 i hi = .ok s ∧
      s.StartedBy options k := by
  have hw : 0 < options.stripeWidth.toNat := Nat.pos_of_mul_pos_right hpos
  have hs : 0 < options.stripeSlots.toNat := Nat.pos_of_mul_pos_left hpos
  -- the assertion on the last position compares 64-bit values, where `2 ^ 64` is 0
  have hsum : hi + 1 = 0 + i * options.stripeWidth.toUInt64 * options.stripeSlots.toUInt64 := by
    apply UInt64.toNat_inj.mp
    rw [UInt64.zero_add, UInt64.mul_assoc, UInt64.toNat_add, UInt64.toNat_mul, toNat_size, hi']
    rw [show (1 : UInt64).toNat = 1 from rfl, hmax]
    rfl
  have hlast : hi = 0 + i * options.stripeWidth.toUInt64 * options.stripeSlots.toUInt64 - 1 := by
    rw [← hsum, UInt64.add_sub_cancel]
  have hinst : 0 < i := by
    show 0 < i.toNat
    omega
  exact ⟨⟨0, options.stripeWidth, options.stripeSlots, 0, i, hi, hw, hs, hinst, by simp,
    UInt64.zero_le, hlast⟩, MultiStripe.new_eq_ok.mpr ⟨rfl, rfl, rfl, rfl, rfl, rfl⟩,
    ⟨rfl, rfl, rfl, rfl, hi', hmax⟩⟩

/-- What the exact assertions say of a run from position 0. -/
theorem MultiStripe.Exact.startedBy (h : s.Exact) (hb : s.baseId = 0)
    (hw : s.width = options.stripeWidth) (hs : s.slots = options.stripeSlots)
    (hmin : s.minPosition = 0) : s.StartedBy options s.instances.toNat := by
  obtain ⟨hw0, hs0, hi0, -, -, hmax⟩ := h
  refine ⟨hb, hw, hs, hmin, rfl, ?_⟩
  have hpos : 0 < s.instances.toNat * s.width.toNat * s.slots.toNat :=
    Nat.mul_pos (Nat.mul_pos hi0 hw0) hs0
  rw [hmin, UInt64.toNat_zero] at hmax
  unfold Options.size
  rw [← hw, ← hs, ← Nat.mul_assoc]
  omega

theorem MultiStripe.StartedBy.exact (h : s.StartedBy options k) : s.Exact := by
  refine ⟨s.width_pos, s.slots_pos, s.instances_pos, ?_, s.min_le_max, ?_⟩
  · rw [h.baseId, h.minPosition]
    rfl
  · have := h.maxPosition
    unfold Options.size at this
    rw [h.minPosition, h.instances, h.width, h.slots, UInt64.toNat_zero, Nat.mul_assoc]
    omega

/-! ### One more stripe -/

namespace ObjectMap

theorem new_eq_ok {next mv : UInt64} {stripes : StripeMap} :
    new next stripes mv = .ok m ↔
      m.nextStripeId = next ∧ m.stripes = stripes ∧ m.minValidPosition = mv := by
  unfold new
  constructor
  · intro h
    by_cases hc : isValid next stripes = true
    · rw [dif_pos hc] at h
      cases h
      exact ⟨rfl, rfl, rfl⟩
    · rw [dif_neg hc] at h
      cases h
  · rintro ⟨rfl, rfl, rfl⟩
    rw [dif_pos m.valid]

/-- A single run from position 0 is a valid map. -/
theorem isValid_single {stripes : StripeMap} {next : UInt64} (hl : stripes.toList = [(0, s)])
    (hs : s.StartedBy options k) (hnext : next.toNat = k) : isValid next stripes = true := by
  have hid : next = s.maxStripeId + 1 := by
    -- the id of the next stripe is the number of stripes
    have hinst : next = s.instances := UInt64.toNat_inj.mp (hnext.trans hs.instances.symm)
    unfold MultiStripe.maxStripeId
    rw [hs.baseId, UInt64.zero_add, UInt64.sub_add_cancel, hinst]
  unfold isValid Lib.OrderedMap.last? Lib.OrderedMap.first?
  rw [hl]
  simp [adjacent, hid, hs.baseId, hs.minPosition]

theorem new_run {stripes : StripeMap} {next : UInt64} (mv : UInt64) (hl : stripes.toList = [(0, s)])
    (hs : s.StartedBy options k) (hnext : next.toNat = k) (hk : 0 < k) :
    ∃ m, new next stripes mv = .ok m ∧ Run options k m := by
  obtain ⟨k, rfl⟩ := Nat.exists_eq_succ_of_ne_zero (Nat.ne_of_gt hk)
  exact ⟨⟨next, stripes, mv, isValid_single hl hs hnext⟩, new_eq_ok.mpr ⟨rfl, rfl, rfl⟩,
    .stripes hl hs hnext⟩

/-- The last position of the first stripe, as the 32-bit code computes it. -/
theorem toNat_firstMax {w s : UInt32} (hpos : 0 < w.toNat * s.toNat)
    (hlt : w.toNat * s.toNat < 2 ^ 32) :
    (w * s - 1).toUInt64.toNat + 1 = w.toNat * s.toNat := by
  have hprod : (w * s).toNat = w.toNat * s.toNat := by
    rw [UInt32.toNat_mul]
    exact Nat.mod_eq_of_lt hlt
  have hone : (1 : UInt32) ≤ w * s := by
    show (1 : UInt32).toNat ≤ (w * s).toNat
    rw [hprod]
    exact hpos
  rw [UInt32.toNat_toUInt64, UInt32.toNat_sub_of_le _ _ hone, hprod]
  exact Nat.sub_add_cancel hpos

/-- A round constructs one run of `k + 1` stripes, and keeps it when the constructor accepts it. -/
theorem addStripe_iff (h : Run options k m) :
    ∃ i hi : UInt64, i.toNat = (k + 1) % 2 ^ 64 ∧
      (0 < options.size → options.size < 2 ^ 32 → (k + 1) * options.size ≤ 2 ^ 64 →
        hi.toNat + 1 = (k + 1) * options.size) ∧
      (k = 0 → hi = (options.stripeWidth * options.stripeSlots - 1).toUInt64) ∧
      ∀ stripes, addStripe m.stripes m.nextStripeId options = .ok stripes ↔
        ∃ s, MultiStripe.new 0 options.stripeWidth options.stripeSlots 0 i hi = .ok s ∧
          stripes.toList = [(0, s)] := by
  -- the first stripe is computed in 32 bits, every later one extends the run in 64 bits
  cases h with
  | empty hl hnext =>
    have hzero : m.nextStripeId = 0 := UInt64.toNat_inj.mp hnext
    have hempty : m.stripes = .empty := Lib.OrderedMap.ext hl
    refine ⟨1, (options.stripeWidth * options.stripeSlots - 1).toUInt64, rfl, ?_, fun _ => rfl, ?_⟩
    · intro hpos hlt _
      rw [Nat.zero_add, Nat.one_mul]
      exact toNat_firstMax hpos hlt
    · intro stripes
      rw [hzero, hempty]
      unfold addStripe
      dsimp only [Lib.OrderedMap.last?, Lib.OrderedMap.toList_empty, List.getLast?_nil]
      cases hnew : MultiStripe.new 0 options.stripeWidth options.stripeSlots 0 1
          (options.stripeWidth * options.stripeSlots - 1).toUInt64 with
      | error f => simp
      | ok s =>
        constructor
        · intro h
          cases h
          exact ⟨s, rfl, rfl⟩
        · rintro ⟨s', hs', hl'⟩
          -- the key of the run is its base id, so inserting it gives the singleton
          cases hs'
          dsimp only
          rw [if_pos rfl]
          exact congrArg Except.ok (Lib.OrderedMap.ext hl'.symm)
  | @stripes _ s k hl hs hnext =>
    have hinst : m.nextStripeId = s.instances :=
      UInt64.toNat_inj.mp (hnext.trans hs.instances.symm)
    have hlast : m.stripes.last? = some (0, s) := by
      unfold Lib.OrderedMap.last?
      rw [hl]
      rfl
    refine ⟨s.instances + 1,
      s.maxPosition + s.width.toUInt64 * s.slots.toUInt64, ?_, ?_, by omega, ?_⟩
    · rw [UInt64.toNat_add, hs.instances]
      rfl
    · intro hpos hlt hle
      have hsize : (s.width.toUInt64 * s.slots.toUInt64).toNat = options.size := by
        rw [toNat_size, hs.width, hs.slots]
        rfl
      have hmax := hs.maxPosition
      rw [Nat.add_mul (k + 1), Nat.one_mul] at hle ⊢
      rw [UInt64.toNat_add, hsize]
      omega
    · intro stripes
      unfold addStripe MultiStripe.extend
      rw [hlast]
      dsimp only
      rw [hs.baseId, hs.minPosition, ← hs.width, ← hs.slots]
      cases hnew : MultiStripe.new 0 s.width s.slots 0 (s.instances + 1)
          (s.maxPosition + s.width.toUInt64 * s.slots.toUInt64) with
      | error f => simp
      | ok s' =>
        obtain ⟨hb', -, -, hmin', hi', -⟩ := MultiStripe.new_eq_ok.mp hnew
        have hid : s'.maxStripeId = m.nextStripeId := by
          unfold MultiStripe.maxStripeId
          rw [hb', hi', hinst, UInt64.zero_add, UInt64.add_sub_cancel]
        -- the run is erased under its key and inserted again
        have herase : m.stripes.erase 0 = .empty := by
          apply Lib.OrderedMap.ext
          exact Lib.OrderedMap.toList_erase_of_cons (b := (0, s)) hl
        constructor
        · intro h
          dsimp only at h
          rw [if_pos ⟨hmin', hid⟩, herase, hmin'] at h
          cases h
          exact ⟨s', rfl, rfl⟩
        · rintro ⟨s'', hs'', hl'⟩
          cases hs''
          dsimp only
          rw [if_pos ⟨hmin', hid⟩, herase, hmin']
          exact congrArg Except.ok (Lib.OrderedMap.ext hl'.symm)

theorem Run.toNat_next (h : Run options k m) : m.nextStripeId.toNat = k := by
  cases h with
  | empty _ hnext => exact hnext
  | stripes _ _ hnext => exact hnext

/-- Where the next stripe ends within 64 bits, a round adds exactly that stripe. -/
theorem Run.expandRound (h : Run options k m) (hpos : 0 < options.size)
    (hlt : options.size < 2 ^ 32) (hle : (k + 1) * options.size ≤ 2 ^ 64) (hk : k + 1 < 2 ^ 64) :
    ∃ m', m.expandRound options = .ok m' ∧ Run options (k + 1) m' := by
  obtain ⟨i, hi, hinst, hmax, -, hiff⟩ := addStripe_iff h
  rw [Nat.mod_eq_of_lt hk] at hinst
  obtain ⟨s, hs, hstart⟩ :=
    MultiStripe.new_startedBy hpos (Nat.succ_pos k) hinst (hmax hpos hlt hle)
  have hadd := (hiff (.singleton 0 s)).mpr ⟨s, hs, rfl⟩
  have hnext : (m.nextStripeId + 1).toNat = k + 1 := by
    rw [UInt64.toNat_add, h.toNat_next]
    exact Nat.mod_eq_of_lt hk
  obtain ⟨m', hm', hrun⟩ :=
    new_run m.minValidPosition (Lib.OrderedMap.toList_singleton 0 s) hstart hnext
      (Nat.succ_pos k)
  refine ⟨m', ?_, hrun⟩
  unfold ObjectMap.expandRound
  rw [hadd]
  exact hm'

/-- A round whose result is exact has added the next stripe, and neither its end nor the number of
    stripes wrapped. -/
theorem Run.of_expandRound (h : Run options k m) (hm' : m.expandRound options = .ok m')
    (hexact : ∀ x ∈ m'.stripes.toList, x.2.Exact) :
    Run options (k + 1) m' ∧ (k + 1) * options.size ≤ 2 ^ 64 ∧ k + 1 < 2 ^ 64 := by
  obtain ⟨i, hi, hinst, -, -, hiff⟩ := addStripe_iff h
  unfold ObjectMap.expandRound at hm'
  cases hadd : addStripe m.stripes m.nextStripeId options with
  | error f =>
    rw [hadd] at hm'
    cases hm'
  | ok stripes =>
    rw [hadd] at hm'
    obtain ⟨hnext, hst, -⟩ := new_eq_ok.mp hm'
    obtain ⟨s, hs, hl⟩ := (hiff stripes).mp hadd
    obtain ⟨hb, hw, hsl, hmin, hi', -⟩ := MultiStripe.new_eq_ok.mp hs
    rw [← hst] at hl
    -- the run of the result is exact, so its end and its count are those of the integers
    have hmem : ((0 : UInt64), s) ∈ m'.stripes.toList := by
      rw [hl]
      exact List.mem_singleton_self _
    have hstart : s.StartedBy options s.instances.toNat :=
      (hexact (0, s) hmem).startedBy hb hw hsl hmin
    rw [hi', hinst] at hstart
    have hposi : 0 < s.instances.toNat := s.instances_pos
    rw [hi', hinst] at hposi
    have hle : m.nextStripeId.toNat < 2 ^ 64 := m.nextStripeId.toNat_lt
    rw [h.toNat_next] at hle
    -- a count of `2 ^ 64` stripes would have become 0
    have hk : k + 1 < 2 ^ 64 := by omega
    rw [Nat.mod_eq_of_lt hk] at hstart
    have hnext' : m'.nextStripeId.toNat = k + 1 := by
      rw [hnext, UInt64.toNat_add, h.toNat_next]
      exact Nat.mod_eq_of_lt hk
    have hmax := hstart.maxPosition
    have hlast : s.maxPosition.toNat < 2 ^ 64 := s.maxPosition.toNat_lt
    exact ⟨.stripes hl hstart hnext', by omega, hk⟩

theorem Run.exact (h : Run options k m) : ∀ x ∈ m.stripes.toList, x.2.Exact := by
  intro x hx
  cases h with
  | empty hl _ =>
    rw [hl] at hx
    cases hx
  | stripes hl hs _ =>
    rw [hl, List.mem_singleton] at hx
    rw [hx]
    exact hs.exact

/-! ### Lookups -/

/-- A position past the last stripe is not mapped. -/
theorem Run.unmapped (h : Run options k m) {p : UInt64} (hp : k * options.size ≤ p.toNat) :
    m.findStripe p = .ok none := by
  unfold findStripe Lib.OrderedMap.isEmpty
  cases h with
  | empty hl _ =>
    rw [hl]
    rfl
  | @stripes _ s k hl hs _ =>
    -- the only run starts at 0 and is found for every position
    have hfloor : m.stripes.floor? p = some (0, s) := by
      unfold Lib.OrderedMap.floor?
      rw [hl]
      simp
    have hmax := hs.maxPosition
    have hpast : ¬ p ≤ s.maxPosition := by
      rw [UInt64.le_iff_toNat_le]
      omega
    rw [hl, hfloor]
    simp [hpast]

/-- A mapped position is looked up in the one run, by exact division. -/
theorem Run.mapped (h : Run options k m) (hlt : options.size < 2 ^ 32) {p : UInt64}
    (hp : p.toNat < k * options.size) :
    ∃ s id, m.stripes.toList = [(0, s)] ∧ s.StartedBy options k ∧
      id.toNat = p.toNat / options.size ∧ m.findStripe p = .ok (some (0, s, id)) := by
  cases h with
  | empty _ _ => omega
  | @stripes _ s k hl hs _ =>
    have hfloor : m.stripes.floor? p = some (0, s) := by
      unfold Lib.OrderedMap.floor?
      rw [hl]
      simp
    have hmax := hs.maxPosition
    have hin : p ≤ s.maxPosition := by
      rw [UInt64.le_iff_toNat_le]
      omega
    have hsize : (s.width * s.slots).toUInt64.toNat = options.size := by
      rw [hs.width, hs.slots]
      exact toNat_stripeSize hlt
    have hpos : 0 < options.size := Nat.pos_of_mul_pos_left (Nat.lt_of_le_of_lt (Nat.zero_le _) hp)
    -- a nonzero size: the division does not fail
    have hne : s.width * s.slots ≠ 0 := by
      intro hzero
      rw [hzero] at hsize
      exact Nat.ne_of_gt hpos hsize.symm
    refine ⟨s, s.baseId + (p - 0) / (s.width * s.slots).toUInt64, hl, hs, ?_, ?_⟩
    · rw [hs.baseId, UInt64.zero_add, UInt64.sub_zero, UInt64.toNat_div, hsize]
    · unfold findStripe Lib.OrderedMap.isEmpty
      rw [hl, hfloor]
      simp [hin, hne]

/-- The id of the last stripe of a run. -/
theorem toNat_maxStripeId (hs : s.StartedBy options k) (hk : 0 < k) :
    s.maxStripeId.toNat = k - 1 := by
  have hone : (1 : UInt64) ≤ s.instances := by
    rw [UInt64.le_iff_toNat_le, hs.instances]
    exact hk
  unfold MultiStripe.maxStripeId
  rw [hs.baseId, UInt64.zero_add, UInt64.toNat_sub_of_le _ _ hone, hs.instances]
  rfl

/-- `a + b - 1` in 64 bits, where the sum is at most `2 ^ 64`. -/
theorem toNat_last {a b : UInt64} (hb : 0 < b.toNat) (h : a.toNat + b.toNat ≤ 2 ^ 64) :
    (a + b - 1).toNat + 1 = a.toNat + b.toNat := by
  rw [UInt64.toNat_sub, UInt64.toNat_add, UInt64.toNat_one]
  omega

/-- The constructor of a stripe accepts the exact range of the stripe of the given id. -/
theorem Stripe.new_run {id lo hi : UInt64} (hpos : 0 < options.size)
    (hlo : lo.toNat = id.toNat * options.size)
    (hhi : hi.toNat + 1 = (id.toNat + 1) * options.size) :
    ∃ stripe, Stripe.new id options.stripeWidth lo hi = .ok stripe ∧ stripe.stripeId = id ∧
      stripe.width = options.stripeWidth ∧ stripe.minPosition = lo ∧ stripe.maxPosition = hi := by
  have hw : 0 < options.stripeWidth.toNat := Nat.pos_of_mul_pos_right hpos
  have hs : 0 < options.stripeSlots.toNat := Nat.pos_of_mul_pos_left hpos
  have hwle : options.stripeWidth.toNat ≤ options.size := Nat.le_mul_of_pos_right _ hs
  have hhi64 : hi.toNat < 2 ^ 64 := hi.toNat_lt
  rw [Nat.add_mul, Nat.one_mul, ← hlo] at hhi
  -- the assertions of the constructor, one by one
  have hmin : if 0 < id then 0 < lo else lo = 0 := by
    split
    · next hid =>
      have hid' : 0 < id.toNat := hid
      show 0 < lo.toNat
      rw [hlo]
      exact Nat.mul_pos hid' hpos
    · next hid =>
      have hid' : ¬ 0 < id.toNat := hid
      apply UInt64.toNat_inj.mp
      rw [hlo, Nat.eq_zero_of_not_pos hid', Nat.zero_mul]
      rfl
  have hle : lo ≤ hi := by
    rw [UInt64.le_iff_toNat_le]
    omega
  have hwidth : lo + options.stripeWidth.toUInt64 - 1 ≤ hi := by
    have hsum := toNat_last (a := lo) (b := options.stripeWidth.toUInt64)
      (by rw [UInt32.toNat_toUInt64]; exact hw) (by rw [UInt32.toNat_toUInt64]; omega)
    rw [UInt32.toNat_toUInt64] at hsum
    rw [UInt64.le_iff_toNat_le]
    omega
  -- the length of the stripe is a multiple of its width
  have hdvd : (hi - lo + 1) % options.stripeWidth.toUInt64 = 0 := by
    apply UInt64.toNat_inj.mp
    have hlen : (hi - lo + 1).toNat = options.size % 2 ^ 64 := by
      rw [UInt64.toNat_add, UInt64.toNat_sub_of_le _ _ hle, UInt64.toNat_one]
      congr 1
      omega
    have hsize : options.size < 2 ^ 64 := by
      have := (options.stripeWidth.toUInt64 * options.stripeSlots.toUInt64).toNat_lt
      rwa [toNat_size] at this
    rw [UInt64.toNat_mod, hlen, Nat.mod_eq_of_lt hsize, UInt32.toNat_toUInt64]
    exact Nat.mul_mod_right _ _
  exact ⟨⟨id, options.stripeWidth, lo, hi, hw, hmin, hle, hwidth, hdvd⟩,
    dif_pos ⟨hw, hmin, hle, hwidth, hdvd⟩, rfl, rfl, rfl, rfl⟩

/-- `stripe_by_id` gives the exact stripe of a run. -/
theorem stripeById_run (hl : m.stripes.toList = [(0, s)]) (hs : s.StartedBy options k) {id : UInt64}
    (hid : id.toNat < k) (hpos : 0 < options.size) :
    ∃ stripe, m.stripeById id = .ok stripe ∧ stripe.stripeId = id ∧
      stripe.width = options.stripeWidth ∧
      stripe.minPosition.toNat = id.toNat * options.size ∧
      stripe.maxPosition.toNat + 1 = (id.toNat + 1) * options.size := by
  have hfloor : (indexById m.stripes).floor? id = some (0, s) := by
    unfold indexById Lib.OrderedMap.floor?
    rw [hl]
    show ((Lib.OrderedMap.emplace .empty s.baseId s).toList.filter _).getLast? = _
    rw [Lib.OrderedMap.emplace_empty, hs.baseId]
    simp
  have hmaxId := toNat_maxStripeId hs (by omega)
  have hsize : (s.width.toUInt64 * s.slots.toUInt64).toNat = options.size := by
    rw [toNat_size, hs.width, hs.slots]
    rfl
  have hmax := hs.maxPosition
  have hmax64 : s.maxPosition.toNat < 2 ^ 64 := s.maxPosition.toNat_lt
  have hend : (id.toNat + 1) * options.size ≤ k * options.size := Nat.mul_le_mul_right _ hid
  have hsplit : (id.toNat + 1) * options.size = id.toNat * options.size + options.size := by
    rw [Nat.add_mul, Nat.one_mul]
  have hlo : (0 + (id - 0) * (s.width.toUInt64 * s.slots.toUInt64)).toNat =
      id.toNat * options.size := by
    rw [UInt64.zero_add, UInt64.sub_zero, UInt64.toNat_mul, hsize]
    exact Nat.mod_eq_of_lt (by omega)
  -- the last position, also where the sum is `2 ^ 64`
  have hhi := toNat_last (a := 0 + (id - 0) * (s.width.toUInt64 * s.slots.toUInt64))
    (b := s.width.toUInt64 * s.slots.toUInt64) (by omega) (by omega)
  rw [hlo, hsize, ← hsplit] at hhi
  obtain ⟨stripe, hnew, hsid, hsw, hsmin, hsmax⟩ := Stripe.new_run hpos hlo hhi
  refine ⟨stripe, ?_, hsid, hsw, ?_, ?_⟩
  · unfold stripeById
    rw [hfloor]
    have hle : id ≤ s.maxStripeId := by
      rw [UInt64.le_iff_toNat_le]
      omega
    dsimp only
    rw [if_pos hle]
    unfold MultiStripe.stripeById
    dsimp only
    rw [hs.baseId, hs.minPosition, if_pos, hs.width]
    · -- the assertion compares with the width of the run
      rw [← hs.width]
      rw [← hs.width] at hnew
      exact hnew
    · refine ⟨UInt64.zero_le, hle, ?_, ?_, UInt64.zero_le, ?_⟩
      · rw [UInt64.lt_iff_toNat_lt, UInt64.sub_zero, hs.instances]
        exact hid
      · rw [UInt64.lt_iff_toNat_lt, hsize]
        exact hpos
      · rw [UInt64.le_iff_toNat_le]
        omega
  · rw [hsmin, hlo]
  · rw [hsmax, hhi]

/-- A mapped position: the name, and whether it is in the last stripe. -/
theorem Run.map (h : Run options k m) (hlt : options.size < 2 ^ 32) {p : UInt64}
    (hp : p.toNat < k * options.size) :
    m.map p = .ok (some (ZLog.Stripe.oidAt (p.toNat / options.size)
      (p.toNat % options.stripeWidth.toNat)), decide (p.toNat / options.size + 1 = k)) := by
  obtain ⟨s, id, hl, hs, hid, hfind⟩ := h.mapped hlt hp
  have hpos : 0 < options.size := Nat.pos_of_mul_pos_left (Nat.lt_of_le_of_lt (Nat.zero_le _) hp)
  have hidk : id.toNat < k := by
    rw [hid]
    exact Nat.div_lt_of_lt_mul (by rwa [Nat.mul_comm])
  have hmaxId := toNat_maxStripeId hs (by omega)
  have hmax := hs.maxPosition
  have hname : s.map id p = .ok (ZLog.Stripe.oidAt (p.toNat / options.size)
      (p.toNat % options.stripeWidth.toNat)) := by
    -- the column fits 32 bits as the width does
    have hindex : (p % s.width.toUInt64).toUInt32.toNat = p.toNat % options.stripeWidth.toNat := by
      have hlt32 : p.toNat % s.width.toNat < 2 ^ 32 :=
        Nat.lt_trans (Nat.mod_lt _ s.width_pos) s.width.toNat_lt
      rw [UInt64.toNat_toUInt32, UInt64.toNat_mod, UInt32.toNat_toUInt64, Nat.mod_eq_of_lt hlt32,
        hs.width]
    have hle : id ≤ s.maxStripeId := by
      rw [UInt64.le_iff_toNat_le]
      omega
    have hin : p ≤ s.maxPosition := by
      rw [UInt64.le_iff_toNat_le]
      omega
    unfold MultiStripe.map Stripe.makeOid
    rw [hs.baseId, hs.minPosition, if_pos ⟨UInt64.zero_le, hle, UInt64.zero_le, hin⟩, hindex, hid]
  have hflag : (id = s.maxStripeId) ↔ p.toNat / options.size + 1 = k := by
    rw [← UInt64.toNat_inj, hmaxId, ← hid]
    omega
  unfold ObjectMap.map
  rw [hfind]
  dsimp only
  rw [hname]
  unfold Lib.OrderedMap.last?
  rw [hl]
  simp [hflag]

/-- Looking up any position in a map of the first stripes selects the right one. -/
theorem Run.selects (h : Run options k m) (hlt : 0 < k → options.size < 2 ^ 32) (p : UInt64) :
    m.Selects p := by
  -- a position in the run, or past it
  by_cases hp : p.toNat < k * options.size
  · have hk : 0 < k := Nat.pos_of_mul_pos_right (Nat.lt_of_le_of_lt (Nat.zero_le _) hp)
    have hlt := hlt hk
    obtain ⟨s, id, hl, hs, hid, hfind⟩ := h.mapped hlt hp
    have hpos : 0 < options.size :=
      Nat.pos_of_mul_pos_left (Nat.lt_of_le_of_lt (Nat.zero_le _) hp)
    have hidk : id.toNat < k := by
      rw [hid]
      exact Nat.div_lt_of_lt_mul (by rwa [Nat.mul_comm])
    obtain ⟨stripe, hok, hsid, hsw, hlo, hhi⟩ := stripeById_run hl hs hidk hpos
    have hsize : s.size = options.size := by
      unfold MultiStripe.size
      rw [hs.width, hs.slots]
      rfl
    have hmap := h.map hlt hp
    have hstripe : m.mapStripe p = .ok (some stripe) := by
      unfold mapStripe
      rw [hfind]
      dsimp only
      rw [hok]
    have hdiv := Nat.div_add_mod p.toNat options.size
    have hmod := Nat.mod_lt p.toNat hpos
    rw [← hid, Nat.mul_comm] at hdiv
    refine .inl ⟨(0, s), by rw [hl]; exact List.mem_singleton_self _, id.toNat, stripe,
      decide (p.toNat / options.size + 1 = k), ⟨?_, ?_, ?_⟩, hstripe, ?_, ?_, ?_, ?_, ?_⟩
    · rw [hs.instances]
      exact hidk
    · rw [hs.minPosition, hsize, UInt64.toNat_zero]
      omega
    · rw [hs.minPosition, hsize, UInt64.toNat_zero, Nat.add_mul, Nat.one_mul]
      omega
    · rw [hsid, hs.baseId, UInt64.toNat_zero, Nat.zero_add]
    · rw [hsw, hs.width]
    · rw [hlo, hs.minPosition, hsize, UInt64.toNat_zero, Nat.zero_add]
    · rw [hhi, hs.minPosition, hsize, UInt64.toNat_zero, Nat.zero_add]
    · rw [hmap, hs.baseId, hs.width, UInt64.toNat_zero, Nat.zero_add, hid]
  · have hunm := h.unmapped (Nat.le_of_not_lt hp)
    refine .inr ⟨?_, ?_, ?_⟩
    · -- a stripe that holds the position would end behind it
      intro x hx j hj
      cases h with
      | empty hl _ =>
        rw [hl] at hx
        cases hx
      | @stripes _ s k hl hs _ =>
        rw [hl, List.mem_singleton] at hx
        subst hx
        obtain ⟨hjk, -, hend⟩ := hj
        have hsize : s.size = options.size := by
          unfold MultiStripe.size
          rw [hs.width, hs.slots]
          rfl
        rw [hs.instances] at hjk
        rw [hs.minPosition, hsize, UInt64.toNat_zero, Nat.zero_add] at hend
        exact hp (Nat.lt_of_lt_of_le hend (Nat.mul_le_mul_right _ hjk))
    · unfold mapStripe
      rw [hunm]
    · unfold ObjectMap.map
      rw [hunm]

/-- The stripes of a map end within 64 bits. -/
theorem Run.le (h : Run options k m) : k * options.size ≤ 2 ^ 64 := by
  cases h with
  | empty _ _ => omega
  | @stripes _ s k hl hs _ =>
    have hmax := hs.maxPosition
    have hlast : s.maxPosition.toNat < 2 ^ 64 := s.maxPosition.toNat_lt
    omega

theorem Run.maxPosition (h : Run options k m) (hk : 0 < k) :
    m.maxPosition.toNat + 1 = k * options.size := by
  cases h with
  | empty _ _ => omega
  | @stripes _ s k hl hs _ =>
    unfold ObjectMap.maxPosition Lib.OrderedMap.last?
    rw [hl]
    exact hs.maxPosition

end ObjectMap

theorem createInitial_run (hpos : 0 < options.size)
    (hlt : options.createInitialViewStripes = true → options.size < 2 ^ 32) :
    ∃ m, createInitial options = .ok m ∧
      ObjectMap.Run options (if options.createInitialViewStripes then 1 else 0) m := by
  unfold createInitial
  by_cases hflag : options.createInitialViewStripes = true
  · -- the first stripe of an initial view
    have hmax := ObjectMap.toNat_firstMax hpos (hlt hflag)
    obtain ⟨s, hs, hstart⟩ := MultiStripe.new_startedBy (k := 1) (i := 1) hpos Nat.one_pos rfl
      (hmax.trans (Nat.one_mul _).symm)
    rw [if_pos hflag, if_pos hflag, hs]
    exact ObjectMap.new_run 0 (Lib.OrderedMap.toList_singleton 0 s) hstart rfl Nat.one_pos
  · rw [if_neg hflag, if_neg hflag]
    exact ⟨⟨0, .empty, 0, rfl⟩, ObjectMap.new_eq_ok.mpr ⟨rfl, rfl, rfl⟩, .empty rfl rfl⟩

end Run

/-- The size of a stripe fits 32 bits, and for each position the stripe that holds it and the next
    one (which is mapped ahead) end below the largest position, or the stripes end exactly at it. -/
def Fits (options : Options) (positions : List UInt64) : Prop :=
  options.size < 2 ^ 32 ∧ ∀ p ∈ positions,
    (p.toNat / options.size + 2) * options.size < 2 ^ 64 ∨
      (1 < options.size ∧ options.size ∣ 2 ^ 64)

section Fits

variable {options : Options} {positions : List UInt64} {m : ObjectMap} {k : Nat} {p : UInt64}

/-- Where there is room for one more position, there is room for the whole next stripe. -/
theorem Fits.next (h : Fits options positions) (hpos : 0 < options.size) (hp : p ∈ positions)
    (hk : k ≤ p.toNat / options.size + 1) (hroom : k * options.size < 2 ^ 64) :
    (k + 1) * options.size ≤ 2 ^ 64 ∧ k + 1 < 2 ^ 64 := by
  -- either the next stripe ends below the last position, or the stripes end exactly at it
  rcases h.2 p hp with hend | ⟨hone, c, hc⟩
  · have hle : (k + 1) * options.size ≤ (p.toNat / options.size + 2) * options.size :=
      Nat.mul_le_mul_right _ (by omega)
    have hcount : k + 1 ≤ (k + 1) * options.size := Nat.le_mul_of_pos_right _ hpos
    exact ⟨by omega, by omega⟩
  · rw [hc, Nat.mul_comm options.size c] at hroom
    have hkc : k + 1 ≤ c := Nat.lt_of_mul_lt_mul_right hroom
    have hle : (k + 1) * options.size ≤ c * options.size := Nat.mul_le_mul_right _ hkc
    have hdouble : 2 * c ≤ options.size * c := Nat.mul_le_mul_right _ hone
    exact ⟨by rwa [hc, Nat.mul_comm options.size c], by omega⟩

/-- Under the bounds, a client builds the maps of the first stripes and nothing else. -/
theorem Fits.run (h : Fits options positions) (hpos : 0 < options.size)
    {r : Except Fault ObjectMap} (hr : Built options positions r) :
    ∃ m k, r = .ok m ∧ ObjectMap.Run options k m := by
  -- by the maps that a client builds
  induction hr with
  | create =>
    obtain ⟨m, hm, hrun⟩ := createInitial_run hpos (fun _ => h.1)
    exact ⟨m, _, hm, hrun⟩
  -- the position is past the last stripe
  | @expand m p _ hp hmap ih =>
    obtain ⟨_, k, heq, hrun⟩ := ih
    cases heq
    have hpast : k * options.size ≤ p.toNat := by
      by_contra hlt
      rw [hrun.map h.1 (Nat.lt_of_not_le hlt)] at hmap
      cases hmap
    have hk : k ≤ p.toNat / options.size := (Nat.le_div_iff_mul_le hpos).mpr hpast
    have hp64 : p.toNat < 2 ^ 64 := p.toNat_lt
    obtain ⟨hle, hcount⟩ := h.next hpos hp (Nat.le_succ_of_le hk) (Nat.lt_of_le_of_lt hpast hp64)
    obtain ⟨m', hm', hrun'⟩ := hrun.expandRound hpos h.1 hle hcount
    exact ⟨m', k + 1, hm', hrun'⟩
  -- the position is in the last stripe, and the one after it is mapped ahead
  | @ahead m p oid _ hp hmap hnext ih =>
    obtain ⟨_, k, heq, hrun⟩ := ih
    cases heq
    have hin : p.toNat < k * options.size := by
      by_contra hle
      unfold ObjectMap.map at hmap
      rw [hrun.unmapped (Nat.le_of_not_lt hle)] at hmap
      cases hmap
    have hlast : p.toNat / options.size + 1 = k := by
      rw [hrun.map h.1 hin] at hmap
      have hflag := congrArg (fun r : Except Fault (Option String × Bool) =>
        match r with
        | .ok (_, last) => last
        | .error _ => false) hmap
      exact of_decide_eq_true hflag
    have hk : 0 < k := hlast ▸ Nat.succ_pos _
    -- were the map to end at the very last position, position 0 would be looked up next
    have hroom : k * options.size < 2 ^ 64 := by
      apply Nat.lt_of_le_of_ne hrun.le
      intro hfull
      have hzero : (m.maxPosition + 1).toNat = 0 := by
        rw [UInt64.toNat_add, UInt64.toNat_one, hrun.maxPosition hk, hfull]
        exact Nat.mod_self _
      rw [hrun.map h.1 (by rw [hzero]; exact Nat.mul_pos hk hpos)] at hnext
      cases hnext
    obtain ⟨hle, hcount⟩ := h.next hpos hp (Nat.le_of_eq hlast.symm) hroom
    obtain ⟨m', hm', hrun'⟩ := hrun.expandRound hpos h.1 hle hcount
    exact ⟨m', k + 1, hm', hrun'⟩

theorem Fits.noWrap (h : Fits options positions) (hpos : 0 < options.size) :
    NoWrap options positions := by
  intro r hr
  obtain ⟨m, k, rfl, hrun⟩ := h.run hpos hr
  exact ⟨m, rfl, hrun.exact, hrun.selects (fun _ => h.1)⟩

/-! ### Where it wraps -/

/-- An exact first stripe in which a position can be looked up fits 32 bits: at `2 ^ 32` positions
    the stripe size is 0 in 32 bits, and beyond it the last position is wrong. -/
theorem size_lt_of_first {s : MultiStripe} {i : UInt64} (hl : m.stripes.toList = [(0, s)])
    (hnew : MultiStripe.new 0 options.stripeWidth options.stripeSlots 0 i
      (options.stripeWidth * options.stripeSlots - 1).toUInt64 = .ok s)
    (hi : i.toNat = 1) (hexact : ∀ x ∈ m.stripes.toList, x.2.Exact) (hsel : m.Selects 0) :
    options.size < 2 ^ 32 := by
  obtain ⟨hb, hw, hs, hmin, hinst, hmax⟩ := MultiStripe.new_eq_ok.mp hnew
  have hmem : ((0 : UInt64), s) ∈ m.stripes.toList := by
    rw [hl]
    exact List.mem_singleton_self _
  have hstart : s.StartedBy options s.instances.toNat :=
    (hexact (0, s) hmem).startedBy hb hw hs hmin
  have hend := hstart.maxPosition
  -- the last position comes from a 32-bit value
  have hlast : s.maxPosition.toNat < 2 ^ 32 := by
    rw [hmax, UInt32.toNat_toUInt64]
    exact UInt32.toNat_lt _
  rw [hinst, hi, Nat.one_mul] at hend
  by_contra hge
  have hsize : options.size = 2 ^ 32 := by omega
  -- the wrapped size is 0
  have hzero : s.width * s.slots = 0 := by
    apply UInt32.toNat_inj.mp
    rw [UInt32.toNat_mul, hw, hs]
    show options.size % 2 ^ 32 = 0
    rw [hsize]
    exact Nat.mod_self _
  have hfind : m.findStripe 0 = .error .divideByZero := by
    unfold ObjectMap.findStripe Lib.OrderedMap.isEmpty Lib.OrderedMap.floor?
    rw [hl]
    simp [hzero]
  have hmap : m.map 0 = .error .divideByZero := by
    unfold ObjectMap.map
    rw [hfind]
  rcases hsel with ⟨x, -, j, stripe, last, -, -, -, -, -, -, hname⟩ | ⟨-, -, hname⟩
  · rw [hmap] at hname
    cases hname
  · rw [hmap] at hname
    cases hname

/-- One more round of a client whose maps are all exact. -/
theorem NoWrap.round (h : NoWrap options positions) (hrun : ObjectMap.Run options k m)
    (hb : Built options positions (m.expandRound options)) :
    ∃ m', m.expandRound options = .ok m' ∧ Built options positions (.ok m') ∧
      ObjectMap.Run options (k + 1) m' ∧ (k + 1) * options.size ≤ 2 ^ 64 ∧ k + 1 < 2 ^ 64 := by
  obtain ⟨m', hm', hexact, -⟩ := h _ hb
  obtain ⟨hrun', hle, hk⟩ := hrun.of_expandRound hm' hexact
  rw [hm'] at hb
  exact ⟨m', hm', hb, hrun', hle, hk⟩

/-- Once anything is mapped, the size of a stripe must fit 32 bits. -/
theorem NoWrap.size_lt (h : NoWrap options positions) (hpos : 0 < options.size)
    (hany : options.createInitialViewStripes = true ∨ p ∈ positions) :
    options.size < 2 ^ 32 ∧
      ∃ m, Built options positions (.ok m) ∧ ObjectMap.Run options 1 m := by
  have hcreate : Built options positions (createInitial options) := .create
  -- the first stripe is in the initial view, or made by the first expansion
  by_cases hflag : options.createInitialViewStripes = true
  · obtain ⟨m, hm, hexact, hsel⟩ := h _ hcreate
    have hlt : options.size < 2 ^ 32 := by
      have hcreated := hm
      unfold createInitial at hcreated
      rw [if_pos hflag] at hcreated
      cases hnew : MultiStripe.new 0 options.stripeWidth options.stripeSlots 0 1
          (options.stripeWidth * options.stripeSlots - 1).toUInt64 with
      | error f =>
        rw [hnew] at hcreated
        cases hcreated
      | ok s =>
        rw [hnew] at hcreated
        obtain ⟨-, hst, -⟩ := ObjectMap.new_eq_ok.mp hcreated
        have hl : m.stripes.toList = [(0, s)] := by
          rw [hst]
          exact Lib.OrderedMap.toList_singleton 0 s
        exact size_lt_of_first hl hnew rfl hexact (hsel 0)
    obtain ⟨m₁, hm₁, hrun⟩ := createInitial_run hpos (fun _ => hlt)
    rw [if_pos hflag] at hrun
    rw [hm₁] at hcreate
    exact ⟨hlt, m₁, hcreate, hrun⟩
  · have hp : p ∈ positions := hany.resolve_left hflag
    obtain ⟨m, hm, hrun⟩ := createInitial_run hpos (fun hf => absurd hf hflag)
    rw [if_neg hflag] at hrun
    rw [hm] at hcreate
    have hmap : m.map p = .ok (none, false) := by
      unfold ObjectMap.map
      rw [hrun.unmapped (by omega)]
    have hb := Built.expand hcreate hp hmap
    obtain ⟨m', hm', hexact, hsel⟩ := h _ hb
    have hlt : options.size < 2 ^ 32 := by
      obtain ⟨i, hi, hinst, -, hfirst, hiff⟩ := ObjectMap.addStripe_iff hrun
      rw [hfirst rfl] at hiff
      unfold ObjectMap.expandRound at hm'
      cases hadd : ObjectMap.addStripe m.stripes m.nextStripeId options with
      | error f =>
        rw [hadd] at hm'
        cases hm'
      | ok stripes =>
        rw [hadd] at hm'
        obtain ⟨-, hst, -⟩ := ObjectMap.new_eq_ok.mp hm'
        obtain ⟨s, hs, hl⟩ := (hiff stripes).mp hadd
        rw [← hst] at hl
        exact size_lt_of_first hl hs hinst hexact (hsel 0)
    obtain ⟨m₁, -, hb₁, hrun₁, -, -⟩ := h.round hrun hb
    exact ⟨hlt, m₁, hb₁, hrun₁⟩

/-- The client maps a position by one round after the other. -/
theorem NoWrap.reaches (h : NoWrap options positions) (hpos : 0 < options.size)
    (hp : p ∈ positions) {j : Nat} (hj : j ≤ p.toNat / options.size) :
    ∃ m, Built options positions (.ok m) ∧ ObjectMap.Run options (j + 1) m := by
  -- by the number of stripes
  induction j with
  | zero => exact (h.size_lt hpos (.inr hp)).2
  | succ j ih =>
    obtain ⟨m, hb, hrun⟩ := ih (by omega)
    have hpast : (j + 1) * options.size ≤ p.toNat := (Nat.le_div_iff_mul_le hpos).mp hj
    have hmap : m.map p = .ok (none, false) := by
      unfold ObjectMap.map
      rw [hrun.unmapped hpast]
    obtain ⟨m', -, hb', hrun', -, -⟩ := h.round hrun (.expand hb hp hmap)
    exact ⟨m', hb', hrun'⟩

theorem NoWrap.fits (h : NoWrap options positions) (hpos : 0 < options.size)
    (hany : options.createInitialViewStripes = true ∨ positions ≠ []) :
    Fits options positions := by
  have hlt : options.size < 2 ^ 32 := by
    -- one position or the initial view is enough to need the first stripe
    rcases hany with hflag | hne
    · exact (h.size_lt (p := 0) hpos (.inl hflag)).1
    · obtain ⟨p, hp⟩ := List.exists_mem_of_ne_nil positions hne
      exact (h.size_lt hpos (.inr hp)).1
  refine ⟨hlt, fun p hp => ?_⟩
  obtain ⟨m, hb, hrun⟩ := h.reaches hpos hp (Nat.le_refl _)
  have hcount : p.toNat / options.size + 1 < 2 ^ 64 := by
    rw [← hrun.toNat_next]
    exact m.nextStripeId.toNat_lt
  have hin : p.toNat < (p.toNat / options.size + 1) * options.size := by
    rw [Nat.mul_comm]
    exact Nat.lt_mul_div_succ _ hpos
  -- a stripe of one position cannot be the last of `2 ^ 64`
  have hone : ∀ n < 2 ^ 64, n * options.size = 2 ^ 64 → 1 < options.size := by
    intro n hn hfull
    by_contra hle
    have hsize : options.size = 1 := by omega
    rw [hsize, Nat.mul_one] at hfull
    omega
  by_cases hfull : (p.toNat / options.size + 1) * options.size = 2 ^ 64
  · exact .inr ⟨hone _ hcount hfull, _, hfull.symm.trans (Nat.mul_comm _ _)⟩
  · -- the next stripe is mapped ahead, and must not wrap
    have hmax := hrun.maxPosition (Nat.succ_pos _)
    have hle := hrun.le
    have hsucc : (m.maxPosition + 1).toNat = (p.toNat / options.size + 1) * options.size := by
      rw [UInt64.toNat_add, UInt64.toNat_one, hmax]
      exact Nat.mod_eq_of_lt (by omega)
    have hmap := hrun.map hlt hin
    rw [decide_eq_true rfl] at hmap
    have hnext : m.map (m.maxPosition + 1) = .ok (none, false) := by
      unfold ObjectMap.map
      rw [hrun.unmapped (Nat.le_of_eq hsucc.symm)]
    obtain ⟨-, -, -, -, hle', hcount'⟩ := h.round hrun (.ahead hb hp hmap hnext)
    by_cases hend : (p.toNat / options.size + 2) * options.size = 2 ^ 64
    · exact .inr ⟨hone _ hcount' hend, _, hend.symm.trans (Nat.mul_comm _ _)⟩
    · exact .inl (Nat.lt_of_le_of_ne hle' hend)

end Fits

/-- The arithmetic of the mapping code does not wrap exactly when the sizes fit; a client that maps
    nothing at all is safe whatever the options are. -/
theorem noWrap_iff (options : Options) (positions : List UInt64)
    (hwidth : 1 ≤ options.stripeWidth.toNat) (hslots : 1 ≤ options.stripeSlots.toNat) :
    NoWrap options positions ↔
      (options.createInitialViewStripes = false ∧ positions = []) ∨ Fits options positions := by
  have hpos : 0 < options.size := Nat.mul_pos hwidth hslots
  constructor
  · intro h
    by_cases hany : options.createInitialViewStripes = true ∨ positions ≠ []
    · exact .inr (h.fits hpos hany)
    · rw [not_or, Bool.not_eq_true, not_not] at hany
      exact .inl hany
  · rintro (⟨hflag, rfl⟩ | hfits)
    · -- a client without a position builds the initial view and no more
      intro r hr
      cases hr with
      | create =>
        obtain ⟨m, hm, hrun⟩ := createInitial_run hpos (fun hf => by rw [hflag] at hf; cases hf)
        rw [hflag] at hrun
        exact ⟨m, hm, hrun.exact, hrun.selects (fun hk => absurd hk (Nat.lt_irrefl 0))⟩
      | expand _ hp _ => cases hp
      | ahead _ hp _ _ => cases hp
    · exact hfits.noWrap hpos

theorem fits_default : Fits ⟨true, 10, 5⟩ [0, 18446744073709551515] := by
  refine ⟨by decide, ?_⟩
  intro p hp
  left
  rcases List.mem_pair.mp hp with rfl | rfl
  · decide
  · decide

/-- The default configuration, up to a position of 20 digits. -/
theorem noWrap_default : NoWrap ⟨true, 10, 5⟩ [0, 18446744073709551515] :=
  (noWrap_iff ⟨true, 10, 5⟩ [0, 18446744073709551515] (by decide) (by decide)).mpr
    (.inr fits_default)

/-- A stripe of `2 ^ 32` positions: the initial view is built, and looking up position 0 divides by
    zero. -/
theorem wrap_large_stripe : ¬ NoWrap ⟨true, 65536, 65536⟩ [0] := by
  intro h
  obtain ⟨m, hm, -, hsel⟩ := h _ .create
  -- the lookup itself is evaluated
  have heval : (match createInitial ⟨true, 65536, 65536⟩ with
      | .ok m => m.map 0
      | .error f => .error f) = .error .divideByZero := by decide
  have hmap : m.map 0 = .error .divideByZero := by
    rw [hm] at heval
    exact heval
  rcases hsel 0 with ⟨x, -, j, stripe, last, -, -, -, -, -, -, hname⟩ | ⟨-, -, hname⟩
  · rw [hmap] at hname
    cases hname
  · rw [hmap] at hname
    cases hname

end ZLog.Machine
