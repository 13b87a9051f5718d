import ZLog.Mapping.ObjectMap
import Mathlib.Tactic

/-!
# The layout behind an object map

Every object map the client builds is empty or a single run of stripes that starts at position
0.  Such a map is determined by its layout (the width and the number of slots of its stripes)
and the number of its stripes, and the methods of `ObjectMap` are arithmetic on them.  The
results here are what the rest of the development uses of the mapping code.

## Main results

- `HasLayout.map_some`, `HasLayout.map_none`: `map` sends a position to the object
  `position % width` of the stripe `position / size`.
- `HasLayout.expandMapping`: expanding keeps the layout and adds stripes up to the position.
- `mem_mapToObjects`: the objects a range trim visits, and when it may drop them.
-/

namespace ZLog

/-- Width and slots of the stripes of a log.  The source's 32-bit arithmetic lets no larger
    stripe be built. -/
structure Layout where
  width : Nat
  slots : Nat
  width_pos : 0 < width
  slots_pos : 0 < slots
  size_le : width * slots ≤ 2 ^ 32

namespace Layout

/-- The number of positions of a stripe. -/
def size (L : Layout) : Nat := L.width * L.slots

/-- Stripes are not empty. -/
theorem size_pos (L : Layout) : 0 < L.size := Nat.mul_pos L.width_pos L.slots_pos

/-- A stripe has a whole number of rows. -/
theorem width_dvd_size (L : Layout) : L.width ∣ L.size := Dvd.intro _ rfl

/-- The name of the object of a position within its log. -/
def oid (L : Layout) (p : Nat) : String := Stripe.oidAt (p / L.size) (p % L.width)

/-- Rows start over with each stripe. -/
theorem mod_width_add (L : Layout) (s i : Nat) : (s * L.size + i) % L.width = i % L.width := by
  have hdvd : L.width ∣ s * L.size := Dvd.dvd.mul_left L.width_dvd_size s
  obtain ⟨k, hk⟩ := hdvd
  rw [hk, Nat.mul_add_mod]

/-- A stripe has at least one row. -/
theorem width_le_size (L : Layout) : L.width ≤ L.size := Nat.le_of_dvd L.size_pos L.width_dvd_size

/-- The positions of stripe `s`. -/
theorem div_size_eq_iff (L : Layout) {p s : Nat} :
    p / L.size = s ↔ s * L.size ≤ p ∧ p < (s + 1) * L.size := by
  rw [Nat.div_eq_iff L.size_pos]
  have := L.size_pos
  have hexp : (s + 1) * L.size = s * L.size + L.size := Nat.succ_mul s L.size
  omega

end Layout

namespace ObjectMap

/-- The map has `n` stripes with layout `L`, the first one at position 0. -/
structure HasLayout (m : ObjectMap) (L : Layout) (n : Nat) : Prop where
  next : m.nextStripeId = n
  nil : n = 0 → m.stripes.toList = []
  run : 0 < n → ∃ s, m.stripes.toList = [(0, s)] ∧ s.baseId = 0 ∧ s.width = L.width ∧
    s.slots = L.slots ∧ s.minPosition = 0 ∧ s.instances = n

variable {m m' : ObjectMap} {L : Layout} {n : Nat}

/-- An empty map has every layout. -/
theorem HasLayout.of_zero (h : m.HasLayout L 0) (L' : Layout) : m.HasLayout L' 0 :=
  ⟨h.next, h.nil, fun h0 => absurd h0 (by omega)⟩

/-- A map is empty when it has no stripes. -/
theorem HasLayout.empty_iff (h : m.HasLayout L n) : m.empty = true ↔ n = 0 := by
  unfold empty Lib.OrderedMap.isEmpty
  rcases Nat.eq_zero_or_pos n with hn | hn
  · simp [h.nil hn, hn]
  · obtain ⟨s, hs, -⟩ := h.run hn
    simp [hs]
    omega

/-- Only the stripes decide the layout. -/
theorem HasLayout.congr (h : m.HasLayout L n) (hs : m'.stripes = m.stripes)
    (hn : m'.nextStripeId = m.nextStripeId) : m'.HasLayout L n :=
  ⟨hn.trans h.next, fun h0 => hs ▸ h.nil h0, fun h0 => hs ▸ h.run h0⟩

/-- The last position of a run that starts at 0. -/
theorem maxPosition_run {s : MultiStripe} (hw : s.width = L.width) (hs : s.slots = L.slots)
    (hm : s.minPosition = 0) (hi : s.instances = n) : s.maxPosition = n * L.size - 1 := by
  rw [s.max_eq, hw, hs, hm, hi, Layout.size, Nat.mul_assoc, Nat.zero_add]

/-- There is only one run to find. -/
private theorem floor?_single {s : MultiStripe} {stripes : StripeMap}
    (h : stripes.toList = [(0, s)]) (p : Nat) : stripes.floor? p = some (0, s) := by
  simp [Lib.OrderedMap.floor?, h]

/-- There is only one run. -/
private theorem last?_single {s : MultiStripe} {stripes : StripeMap}
    (h : stripes.toList = [(0, s)]) : stripes.last? = some (0, s) := by
  simp [Lib.OrderedMap.last?, h]

/-- The 32-bit product is exact when it fits. -/
theorem mulUInt32_of_lt {w s : Nat} (h : w * s < 2 ^ 32) : mulUInt32 w s = w * s :=
  Nat.mod_eq_of_lt h

/-- The entry `findStripe` returns. -/
theorem HasLayout.findStripe (h : m.HasLayout L n) (p : Nat) :
    (n * L.size ≤ p ∧ m.findStripe p = .ok none) ∨
    (p < n * L.size ∧ L.size = 2 ^ 32 ∧ m.findStripe p = .error .divideByZero) ∨
    (p < n * L.size ∧ L.size < 2 ^ 32 ∧ ∃ s, m.stripes.toList = [(0, s)] ∧ s.baseId = 0 ∧
      s.width = L.width ∧ s.slots = L.slots ∧ s.minPosition = 0 ∧ s.instances = n ∧
      m.findStripe p = .ok (some (0, s, p / L.size))) := by
  unfold ObjectMap.findStripe
  -- without stripes nothing is found
  rcases Nat.eq_zero_or_pos n with hn | hn
  · refine Or.inl ⟨by simp [hn], ?_⟩
    simp [Lib.OrderedMap.isEmpty, h.nil hn]
  · obtain ⟨s, hs, hb, hw, hsl, hm, hi⟩ := h.run hn
    have hne : m.stripes.isEmpty = false := by simp [Lib.OrderedMap.isEmpty, hs]
    have hmax := maxPosition_run hw hsl hm hi
    have hpos : 0 < n * L.size := Nat.mul_pos hn L.size_pos
    simp only [hne, Bool.false_eq_true, if_false, floor?_single hs, hmax]
    -- below the end: the run has the position, unless `width * slots` wrapped to 0
    by_cases hp : p < n * L.size
    · have hle : p ≤ n * L.size - 1 := by omega
      refine Or.inr ?_
      simp only [hle, if_true, Nat.sub_zero, hb, Nat.zero_add]
      rcases Nat.lt_or_ge L.size (2 ^ 32) with hlt | hge
      · have hsize : mulUInt32 s.width s.slots = L.size := by
          rw [hw, hsl, mulUInt32_of_lt hlt]
          rfl
        have hsp := L.size_pos
        refine Or.inr ⟨hp, hlt, s, hs, hb, hw, hsl, hm, hi, ?_⟩
        rw [hsize, if_neg (by omega)]
      · have heq : L.size = 2 ^ 32 := Nat.le_antisymm L.size_le hge
        have hzero : mulUInt32 s.width s.slots = 0 := by
          rw [hw, hsl]
          show L.size % 2 ^ 32 = 0
          rw [heq, Nat.mod_self]
        exact Or.inl ⟨hp, heq, by rw [hzero, if_pos rfl]⟩
    · -- past the end
      have hnle : ¬ p ≤ n * L.size - 1 := by omega
      exact Or.inl ⟨by omega, by rw [if_neg hnle]⟩

/-- `map` on a map with a layout. -/
theorem HasLayout.map_cases (h : m.HasLayout L n) (p : Nat) :
    (n * L.size ≤ p ∧ m.map p = .ok (none, false)) ∨
    (p < n * L.size ∧ L.size = 2 ^ 32 ∧ m.map p = .error .divideByZero) ∨
    (p < n * L.size ∧ L.size < 2 ^ 32 ∧
      m.map p = .ok (some (L.oid p), decide (p / L.size + 1 = n))) := by
  unfold ObjectMap.map
  rcases h.findStripe p with ⟨hp, hf⟩ | ⟨hp, heq, hf⟩ | ⟨hp, hlt, s, hs, hb, hw, hsl, hm, hi, hf⟩
  · -- the three cases of `find_stripe`
    exact Or.inl ⟨hp, by rw [hf]⟩
  · exact Or.inr (Or.inl ⟨hp, heq, by rw [hf]⟩)
  · refine Or.inr (Or.inr ⟨hp, hlt, ?_⟩)
    have hdiv : p / L.size < n := (Nat.div_lt_iff_lt_mul L.size_pos).mpr hp
    have hmaxId : s.maxStripeId = n - 1 := by simp [MultiStripe.maxStripeId, hb, hi]
    have hmax := maxPosition_run hw hsl hm hi
    -- the run maps the position: all assertions of `MultiStripe::map` hold
    have hmap : s.map (p / L.size) p = .ok (L.oid p) := by
      unfold MultiStripe.map
      have hin : s.baseId ≤ p / L.size ∧ p / L.size ≤ s.maxStripeId ∧ s.minPosition ≤ p ∧
          p ≤ s.maxPosition := by
        rw [hb, hmaxId, hm, hmax]
        exact ⟨Nat.zero_le _, Nat.le_pred_of_lt hdiv, Nat.zero_le _, Nat.le_pred_of_lt hp⟩
      rw [if_pos hin, hw]
      rfl
    rw [hf]
    simp only [hmap, last?_single hs, Option.map_some, hmaxId, decide_true, Bool.true_and]
    -- it is the last stripe when its id is that of the last one of the run
    have hdec : decide (p / L.size = n - 1) = decide (p / L.size + 1 = n) := by
      generalize p / L.size = q at hdiv
      simp only [decide_eq_decide]
      omega
    rw [hdec]

/-- A mapped position has the object its layout gives it. -/
theorem HasLayout.map_some (h : m.HasLayout L n) {p : Nat} {oid : String} {last : Bool}
    (hm : m.map p = .ok (some oid, last)) :
    p < n * L.size ∧ L.size < 2 ^ 32 ∧ oid = L.oid p ∧ last = decide (p / L.size + 1 = n) := by
  rcases h.map_cases p with ⟨-, h'⟩ | ⟨-, -, h'⟩ | ⟨hp, hlt, h'⟩
  · rw [h'] at hm
    cases hm
  · rw [h'] at hm
    cases hm
  · rw [h'] at hm
    cases hm
    exact ⟨hp, hlt, rfl, rfl⟩

/-- A position that is not mapped is past the end. -/
theorem HasLayout.map_none (h : m.HasLayout L n) {p : Nat} {last : Bool}
    (hm : m.map p = .ok (none, last)) : n * L.size ≤ p := by
  rcases h.map_cases p with ⟨hp, -⟩ | ⟨-, -, h'⟩ | ⟨-, -, h'⟩
  · exact hp
  · rw [h'] at hm
    cases hm
  · rw [h'] at hm
    cases hm

/-! ## Stripes by id -/

/-- The index has the one run under id 0. -/
private theorem indexById_single {s : MultiStripe} (h : m.stripes.toList = [(0, s)])
    (hb : s.baseId = 0) : (indexById m.stripes).toList = [(0, s)] := by
  simp [indexById, h, hb, Lib.OrderedMap.emplace_empty]

/-- Every stripe of the map can be asked for, and its constructor's assertions hold. -/
theorem HasLayout.stripeById (h : m.HasLayout L n) {id : Nat} (hid : id < n) :
    ∃ stripe, m.stripeById id = .ok stripe ∧ stripe.stripeId = id ∧ stripe.width = L.width ∧
      stripe.minPosition = id * L.size ∧ stripe.maxPosition = (id + 1) * L.size - 1 := by
  obtain ⟨s, hs, hb, hw, hsl, hm, hi⟩ := h.run (by omega)
  have hfloor := floor?_single (indexById_single hs hb) id
  have hmaxId : s.maxStripeId = n - 1 := by simp [MultiStripe.maxStripeId, hb, hi]
  have hmax := maxPosition_run hw hsl hm hi
  have hsize : s.width * s.slots = L.size := by rw [hw, hsl]; rfl
  have hsp := L.size_pos
  have hsucc : (id + 1) * L.size = id * L.size + L.size := Nat.succ_mul id L.size
  have hle : (id + 1) * L.size ≤ n * L.size := Nat.mul_le_mul_right _ hid
  have hwle := L.width_le_size
  -- only the stripe 0 starts at 0
  have hmin : if 0 < id then 0 < id * L.size else id * L.size = 0 := by
    rcases Nat.eq_zero_or_pos id with h0 | h0
    · simp [h0]
    · rw [if_pos h0]
      exact Nat.mul_pos h0 hsp
  -- a stripe is a whole number of rows
  have hdvd : (id * L.size + L.size - 1 - id * L.size + 1) % L.width = 0 := by
    have hcancel : id * L.size + L.size - 1 - id * L.size + 1 = L.size := by omega
    rw [hcancel]
    exact Nat.mod_eq_zero_of_dvd L.width_dvd_size
  refine ⟨⟨id, L.width, id * L.size, (id + 1) * L.size - 1, L.width_pos, hmin, by omega, by omega,
    by rw [hsucc]; exact hdvd⟩, ?_, rfl, rfl, rfl, rfl⟩
  unfold ObjectMap.stripeById
  rw [hfloor]
  dsimp only
  rw [if_pos (by omega)]
  unfold MultiStripe.stripeById
  rw [hb, hmaxId, hm, hmax, hsize, hi, Nat.sub_zero]
  dsimp only
  rw [Nat.zero_add, if_pos (by omega)]
  -- the constructor makes the stripe that was announced
  unfold Stripe.new
  rw [dif_pos ⟨by rw [hw]; exact L.width_pos, hmin, by omega, by rw [hw]; omega,
    by rw [hw]; exact hdvd⟩]
  congr 1
  simp only [Stripe.mk.injEq, hw, true_and]
  omega

/-- A stripe that is found is one of the map. -/
theorem HasLayout.stripeById_ok (h : m.HasLayout L n) {id : Nat} {stripe : Stripe}
    (hok : m.stripeById id = .ok stripe) :
    id < n ∧ stripe.stripeId = id ∧ stripe.width = L.width ∧
      stripe.minPosition = id * L.size ∧ stripe.maxPosition = (id + 1) * L.size - 1 := by
  -- the index would answer nothing for a greater id
  have hid : id < n := by
    by_contra hge
    unfold ObjectMap.stripeById at hok
    rcases Nat.eq_zero_or_pos n with hn | hn
    · have hnil : (indexById m.stripes).floor? id = none := by
        simp [indexById, h.nil hn, Lib.OrderedMap.floor?]
      rw [hnil] at hok
      cases hok
    · obtain ⟨s, hs, hb, -, -, -, hi⟩ := h.run hn
      have hmaxId : s.maxStripeId = n - 1 := by simp [MultiStripe.maxStripeId, hb, hi]
      rw [floor?_single (indexById_single hs hb)] at hok
      dsimp only at hok
      rw [if_neg (by omega)] at hok
      cases hok
  obtain ⟨stripe', hok', hrest⟩ := h.stripeById hid
  rw [hok] at hok'
  cases hok'
  exact ⟨hid, hrest⟩

/-! ## The objects of a range trim -/

/-- What `map_to` says about an object it lists: it holds positions up to `p`, and its flag is
    set when it holds no others. -/
theorem mem_mapToObjects {stripe : Stripe} {s p : Nat} (hid : stripe.stripeId = s)
    (hw : stripe.width = L.width) (hmin : stripe.minPosition = s * L.size)
    (hmax : stripe.maxPosition = (s + 1) * L.size - 1) {oid : String} {full : Bool}
    (hmem : (oid, full) ∈ mapToObjects stripe p) :
    ∃ i, i < L.width ∧ oid = Stripe.oidAt s i ∧
      (full = true → ∀ q, q / L.size = s → q % L.width = i → q ≤ p) := by
  unfold mapToObjects at hmem
  obtain ⟨i, hi, hsome⟩ := List.mem_filterMap.mp hmem
  rw [List.mem_range, hw] at hi
  refine ⟨i, hi, ?_⟩
  rw [hid, hw, hmin, hmax] at hsome
  split at hsome
  · next hle =>
    cases hsome
    refine ⟨rfl, fun _ q hq hqi => ?_⟩
    -- the greatest position of object `i` is the last but `width - 1 - i` of the stripe
    obtain ⟨hlo, hhi⟩ := L.div_size_eq_iff.mp hq
    have hsucc : (s + 1) * L.size = s * L.size + L.size := Nat.succ_mul s L.size
    have hwle := L.width_le_size
    have hwp := L.width_pos
    obtain ⟨k, hk⟩ := L.width_dvd_size
    have hqmod : (q - s * L.size) % L.width = i := by
      have hsplit : q = s * L.size + (q - s * L.size) := by omega
      rw [hsplit, L.mod_width_add] at hqi
      exact hqi
    have hlt : q - s * L.size < L.width * k := by rw [← hk]; omega
    have hdiv : (q - s * L.size) / L.width < k := Nat.div_lt_of_lt_mul hlt
    have hrec := Nat.div_add_mod (q - s * L.size) L.width
    rw [hqmod] at hrec
    have hbound : L.width * ((q - s * L.size) / L.width) + L.width ≤ L.width * k := by
      have := Nat.mul_le_mul_left L.width hdiv
      rw [Nat.mul_succ] at this
      exact this
    rw [← hk] at hbound
    omega
  · split at hsome
    · cases hsome
      exact ⟨rfl, fun h => absurd h (by simp)⟩
    · cases hsome

/-- Every position up to `p` in the stripe is held by a listed object. -/
theorem mapToObjects_complete {stripe : Stripe} {s p : Nat} (hid : stripe.stripeId = s)
    (hw : stripe.width = L.width) (hmin : stripe.minPosition = s * L.size)
    {q : Nat} (hq : q / L.size = s) (hqp : q ≤ p) :
    ∃ full, (Stripe.oidAt s (q % L.width), full) ∈ mapToObjects stripe p := by
  have hi : q % L.width < L.width := Nat.mod_lt _ L.width_pos
  -- the row that has `q` starts in the first rows of the stripe
  have hlo : s * L.size + q % L.width ≤ q := by
    have hsplit : q = s * L.size + (q - s * L.size) := by
      have := (L.div_size_eq_iff.mp hq).1
      omega
    have hmod : q % L.width = (q - s * L.size) % L.width := by
      conv_lhs => rw [hsplit]
      exact L.mod_width_add _ _
    have hle := Nat.mod_le (q - s * L.size) L.width
    omega
  unfold mapToObjects
  simp only [List.mem_filterMap, List.mem_range, hid, hw, hmin]
  -- the object is covered as a whole, or in part
  by_cases hfull : stripe.maxPosition - (L.width - 1) + q % L.width ≤ p
  · exact ⟨true, _, hi, by rw [if_pos hfull]⟩
  · exact ⟨false, _, hi, by rw [if_neg hfull, if_pos (by omega)]⟩

/-! ## Expanding -/

/-- The stripes after one more round of the loop. -/
theorem HasLayout.addStripe (h : m.HasLayout L n) {options : Options} {stripes : StripeMap}
    (ha : addStripe m.stripes n options = .ok stripes) :
    ∃ L' : Layout, (0 < n → L' = L) ∧
      (n = 0 → L'.width = options.stripeWidth ∧ L'.slots = options.stripeSlots) ∧
      ∃ s, stripes.toList = [(0, s)] ∧ s.baseId = 0 ∧ s.width = L'.width ∧ s.slots = L'.slots ∧
        s.minPosition = 0 ∧ s.instances = n + 1 := by
  unfold ObjectMap.addStripe at ha
  rcases Nat.eq_zero_or_pos n with hn | hn
  · -- the first stripe is made from the options
    have hlast : m.stripes.last? = none := by simp [Lib.OrderedMap.last?, h.nil hn]
    have hempty : m.stripes = .empty := Lib.OrderedMap.ext (h.nil hn)
    rw [hlast] at ha
    dsimp only at ha
    split at ha
    · cases ha
    · next s hs =>
      obtain ⟨hb, hw, hsl, hlo, hi, hmax⟩ := MultiStripe.new_eq_ok.mp hs
      -- otherwise the constructor would have rejected the wrapped maximum
      have hle : options.stripeWidth * options.stripeSlots ≤ 2 ^ 32 := by
        have hp := Nat.mul_pos s.width_pos s.slots_pos
        rw [hw, hsl] at hp
        have heq := s.max_eq
        rw [hmax, hlo, hi, hw, hsl, Nat.one_mul] at heq
        have hlt := Nat.mod_lt (mulUInt32 options.stripeWidth options.stripeSlots + 2 ^ 32 - 1)
          (show 0 < 2 ^ 32 by norm_num)
        omega
      rw [if_pos hn] at ha
      cases ha
      refine ⟨⟨options.stripeWidth, options.stripeSlots, hw ▸ s.width_pos, hsl ▸ s.slots_pos,
        hle⟩, fun h0 => absurd h0 (by omega), fun _ => ⟨rfl, rfl⟩, s, ?_, hb.trans hn, hw, hsl,
        hlo, ?_⟩
      · rw [hempty, Lib.OrderedMap.emplace_empty]
        rfl
      · rw [hi, hn]
  · -- a later one extends the run
    obtain ⟨s, hs, hb, hw, hsl, hm, hi⟩ := h.run hn
    obtain ⟨s', hext, hb', hw', hsl', hm', hi'⟩ := s.extend_ok
    have hempty : m.stripes.erase 0 = .empty := by
      apply Lib.OrderedMap.ext
      simp [Lib.OrderedMap.erase, hs]
    rw [last?_single hs] at ha
    simp only [hext] at ha
    split at ha
    · cases ha
      refine ⟨L, fun _ => rfl, fun h0 => absurd h0 (by omega), s', ?_, hb'.trans hb, hw'.trans hw,
        hsl'.trans hsl, hm'.trans hm, by rw [hi', hi]⟩
      rw [hempty, Lib.OrderedMap.emplace_empty, hm', hm]
      rfl
    · cases ha

/-- The constructor fails unless the map is valid. -/
theorem new_eq_ok {next mv : Nat} {stripes : StripeMap} :
    new next stripes mv = .ok m ↔
      m.nextStripeId = next ∧ m.stripes = stripes ∧ m.minValidPosition = mv := by
  unfold new
  constructor
  · intro h
    split at h
    · cases h
      exact ⟨rfl, rfl, rfl⟩
    · cases h
  · rintro ⟨rfl, rfl, rfl⟩
    rw [dif_pos m.valid]

/-- The map that the loop of `expand_mapping` returns. -/
theorem HasLayout.expandLoop (h : m.HasLayout L n) {options : Options} {p mv fuel : Nat}
    (hp : n * L.size ≤ p) (hloop : expandLoop options p mv fuel n m.stripes = .ok m') :
    ∃ (L' : Layout) (n' : Nat), m'.HasLayout L' n' ∧ (0 < n → L' = L) ∧ n < n' ∧
      (n = 0 → L'.width = options.stripeWidth ∧ L'.slots = options.stripeSlots) ∧
      p < n' * L'.size ∧ m'.minValidPosition = mv := by
  induction fuel generalizing m n L with
  | zero => cases hloop
  | succ fuel ih =>
    simp only [ObjectMap.expandLoop] at hloop
    split at hloop
    · -- one round: a stripe is added, the map is rebuilt and asked again
      cases hloop
    · next stripes ha =>
      obtain ⟨L', hL, hL0, s, hs, hb, hw, hsl, hm, hi⟩ := h.addStripe ha
      split at hloop
      · cases hloop
      · next m₁ hnew =>
        obtain ⟨hnext, hst, hmv⟩ := new_eq_ok.mp hnew
        have h₁ : m₁.HasLayout L' (n + 1) :=
          ⟨hnext, fun h0 => absurd h0 (by omega),
            fun _ => ⟨s, by rw [hst, hs], hb, hw, hsl, hm, hi⟩⟩
        split at hloop
        · cases hloop
        · next oid last hmap =>
          -- the position is mapped now
          cases hloop
          obtain ⟨hlt, -, -, -⟩ := h₁.map_some hmap
          exact ⟨L', n + 1, h₁, hL, by omega, hL0, hlt, hmv⟩
        · next last hmap =>
          -- it is not: the next round starts from the longer run
          rw [← hst] at hloop
          obtain ⟨L₂, n₂, h₂, hL₂, hn₂, -, hp₂, hmv₂⟩ := ih h₁ (h₁.map_none hmap) hloop
          have heq : L₂ = L' := hL₂ (by omega)
          subst heq
          exact ⟨L₂, n₂, h₂, hL, by omega, hL0, hp₂, hmv₂⟩

/-- **Expanding** keeps the layout, adds stripes and maps the position. -/
theorem HasLayout.expandMapping (h : m.HasLayout L n) {options : Options} {p : Nat}
    (he : m.expandMapping p options = .ok (some m')) :
    ∃ (L' : Layout) (n' : Nat), m'.HasLayout L' n' ∧ (0 < n → L' = L) ∧ n < n' ∧
      (n = 0 → L'.width = options.stripeWidth ∧ L'.slots = options.stripeSlots) ∧
      n * L.size ≤ p ∧ p < n' * L'.size ∧ m'.minValidPosition = m.minValidPosition := by
  unfold ObjectMap.expandMapping at he
  split at he
  · cases he
  · cases he
  · -- the position is past the end, so at least one round is made
    next last hmap =>
    have hp := h.map_none hmap
    split at he
    · cases he
    · next m₁ hloop =>
      cases he
      rw [h.next] at hloop
      obtain ⟨L', n', h', hL, hn, hL0, hp', hmv⟩ := h.expandLoop hp hloop
      exact ⟨L', n', h', hL, hn, hL0, hp, hp', hmv⟩

/-- The minimum is raised, or it stays and there is no new map. -/
theorem advanceMinValidPosition_some {p : Nat} (h : m.advanceMinValidPosition p = some m') :
    m.minValidPosition < p ∧ m' = { m with minValidPosition := p } := by
  unfold advanceMinValidPosition at h
  split at h
  · cases h
  · cases h
    exact ⟨by omega, rfl⟩

end ObjectMap

end ZLog
