import ZLog.Mapping.View
import ZLog.Lib.Tiling
import ZLog.Lib.Dotted
import Mathlib.Data.Int.CardIntervalMod

/-!
# Valid object maps partition the log

`valid()` makes the runs of a map tile both the mapped positions and the stripe ids, and the
stripes of one run tile the run.  So every mapped position lies in exactly one stripe, and the two
indexes lead to it.  The results hold for maps of any number of runs, of any widths and slots.

## Main results

- `findStripe_mapped`, `findStripe_unmapped`: the search by position.
- `stripeById_ok`: the search by id.
- `objectMap_partition`: the stripes partition the positions, and `map` and `map_stripe` follow them.
-/

namespace ZLog

open Lib

namespace MultiStripe

/-- The number of positions of one stripe. -/
def size (s : MultiStripe) : Nat := s.width * s.slots

/-- The number of positions of the run. -/
def span (s : MultiStripe) : Nat := s.instances * s.size

/-- Stripes are not empty. -/
theorem size_pos (s : MultiStripe) : 0 < s.size := Nat.mul_pos s.width_pos s.slots_pos

/-- A run has positions. -/
theorem span_pos (s : MultiStripe) : 0 < s.span := Nat.mul_pos s.instances_pos s.size_pos

/-- The position after the last one. -/
theorem maxPosition_succ (s : MultiStripe) : s.maxPosition + 1 = s.minPosition + s.span := by
  have hspan := s.span_pos
  have hmax := s.max_eq
  rw [Nat.mul_assoc] at hmax
  unfold span size at hspan ⊢
  omega

/-- The id after the last one. -/
theorem maxStripeId_succ (s : MultiStripe) : s.maxStripeId + 1 = s.baseId + s.instances := by
  have := s.instances_pos
  unfold maxStripeId
  omega

end MultiStripe

namespace ObjectMap

/-! ## The runs of a valid map -/

/-- An entry of the index as a tile of positions, and as a tile of stripe ids. -/
abbrev Entry := Nat × MultiStripe

/-- Where a run starts. -/
def firstPosition (x : Entry) : Nat := x.2.minPosition

/-- How many positions a run has. -/
def positions (x : Entry) : Nat := x.2.span

/-- The id of its first stripe. -/
def firstId (x : Entry) : Nat := x.2.baseId

/-- How many stripes a run has. -/
def ids (x : Entry) : Nat := x.2.instances

/-- One past the last mapped position. -/
def limit (m : ObjectMap) : Nat :=
  match m.stripes.last? with
  | some (_, s) => s.maxPosition + 1
  | none => 0

/-- Adjacent entries tile the positions and the ids. -/
theorem tiles_of_adjacent {l : List Entry} (hkey : ∀ x ∈ l, x.1 = x.2.minPosition)
    (hadj : adjacent l = true) {x last : Entry} (hx : l.head? = some x)
    (hlast : l.getLast? = some last) :
    Tiles firstPosition positions x.2.minPosition l (last.2.maxPosition + 1) ∧
      Tiles firstId ids x.2.baseId l (last.2.maxStripeId + 1) := by
  induction l generalizing x with
  | nil => cases hx
  | cons y l ih =>
    cases hx
    cases l with
    -- the last run ends both tilings
    | nil =>
      cases hlast
      exact ⟨Tiles.singleton_iff.mpr ⟨rfl, y.2.maxPosition_succ.symm⟩,
        Tiles.singleton_iff.mpr ⟨rfl, y.2.maxStripeId_succ.symm⟩⟩
    -- a run and its neighbour, which starts where this one ends
    | cons z l =>
      simp only [adjacent, Bool.and_eq_true, decide_eq_true_eq] at hadj
      obtain ⟨⟨hpos, hid⟩, hrest⟩ := hadj
      rw [hkey z (by simp), y.2.maxPosition_succ] at hpos
      rw [y.2.maxStripeId_succ] at hid
      rw [List.getLast?_cons_cons] at hlast
      obtain ⟨hp, hi⟩ := ih (fun w hw => hkey w (List.mem_cons_of_mem _ hw)) hrest rfl hlast
      rw [← hpos] at hp
      rw [← hid] at hi
      exact ⟨.cons rfl hp, .cons rfl hi⟩

/-- **The runs tile the positions and the stripe ids.** -/
theorem tiles (m : ObjectMap) :
    Tiles firstPosition positions 0 m.stripes.toList m.limit ∧
      Tiles firstId ids 0 m.stripes.toList m.nextStripeId := by
  have hvalid := m.valid
  simp only [isValid, Bool.and_eq_true] at hvalid
  obtain ⟨⟨⟨-, hnext⟩, hfirst⟩, hadj⟩ := hvalid
  unfold limit
  cases hlast : m.stripes.last? with
  -- no runs: nothing is tiled
  | none =>
    have hnil : m.stripes.toList = [] := List.getLast?_eq_none_iff.mp hlast
    rw [hlast] at hnext
    simp only [decide_eq_true_eq] at hnext
    rw [hnil, hnext]
    exact ⟨.nil 0, .nil 0⟩
  -- the first run starts at 0, the last one ends at the next id
  | some last =>
    rw [hlast] at hnext
    simp only [decide_eq_true_eq] at hnext
    cases hhead : m.stripes.first? with
    | none =>
      have hnil : m.stripes.toList = [] := List.head?_eq_none_iff.mp hhead
      unfold OrderedMap.last? at hlast
      rw [hnil] at hlast
      cases hlast
    | some x =>
      rw [hhead] at hfirst
      simp only [decide_eq_true_eq] at hfirst
      have hmem : x ∈ m.stripes.toList := List.mem_of_mem_head? hhead
      have h := tiles_of_adjacent (fun y hy => m.key_eq hy) hadj hhead hlast
      rw [← m.key_eq hmem, hfirst.1, hfirst.2, ← hnext] at h
      exact h

/-- A map is empty when it has no positions. -/
theorem empty_iff_limit (m : ObjectMap) : m.empty = true ↔ m.limit = 0 := by
  unfold empty OrderedMap.isEmpty limit OrderedMap.last?
  cases hlast : m.stripes.toList.getLast? with
  | none => simp [List.getLast?_eq_none_iff.mp hlast]
  | some x =>
    obtain ⟨l, hl⟩ := List.getLast?_eq_some_iff.mp hlast
    simp [hl]

/-- The positions of a map that is not empty. -/
theorem limit_eq (m : ObjectMap) (h : m.empty = false) : m.limit = m.maxPosition + 1 := by
  have hne : m.limit ≠ 0 := by
    intro h0
    rw [m.empty_iff_limit.mpr h0] at h
    cases h
  unfold limit at hne ⊢
  unfold maxPosition
  cases hlast : m.stripes.last? with
  | none =>
    rw [hlast] at hne
    exact absurd rfl hne
  | some x => rfl

/-! ## The search by position -/

/-- `upper_bound` and one step back. -/
theorem floor?_eq (m : ObjectMap) (p : Nat) :
    m.stripes.floor? p =
      (m.stripes.toList.filter (fun x => firstPosition x ≤ p)).getLast? := by
  unfold OrderedMap.floor? firstPosition
  congr 1
  apply List.filter_congr
  intro x hx
  rw [m.key_eq hx]

/-- The entry that holds a mapped position, and the stripe id computed for it. -/
theorem findStripe_mapped {m : ObjectMap} {p : Nat} (hp : p < m.limit) :
    ∃ x ∈ m.stripes.toList, InTile firstPosition positions x p ∧
      m.findStripe p =
        if mulUInt32 x.2.width x.2.slots = 0 then .error .divideByZero
        else .ok (some (x.1, x.2, x.2.baseId +
          (p - x.2.minPosition) / mulUInt32 x.2.width x.2.slots)) := by
  -- the run that starts last at or before `p` covers it, for there are no gaps
  obtain ⟨x, hfloor, hx, hin⟩ := m.tiles.1.floor_inTile (Nat.zero_le p) hp
  refine ⟨x, hx, hin, ?_⟩
  have hne : m.stripes.isEmpty = false := by
    unfold OrderedMap.isEmpty
    exact List.isEmpty_eq_false_iff.mpr (List.ne_nil_of_mem hx)
  have hle : p ≤ x.2.maxPosition := by
    have hmax := x.2.maxPosition_succ
    have hlt : p < x.2.minPosition + x.2.span := hin.2
    omega
  unfold findStripe
  rw [hne, floor?_eq, hfloor]
  simp only [Bool.false_eq_true, if_false, hle, if_true, m.key_eq hx]

/-- Past the limit nothing is found. -/
theorem findStripe_unmapped {m : ObjectMap} {p : Nat} (hp : m.limit ≤ p) :
    m.findStripe p = .ok none := by
  unfold findStripe
  split
  · rfl
  · next hne =>
    have hcons : m.stripes.toList ≠ [] := by
      intro hnil
      exact hne (by simp [OrderedMap.isEmpty, hnil])
    obtain ⟨x, hlast⟩ := Option.ne_none_iff_exists'.mp (mt List.getLast?_eq_none_iff.mp hcons)
    have hgt : ¬ p ≤ x.2.maxPosition := by
      have hend := m.tiles.1.getLast_end hlast
      have hmax := x.2.maxPosition_succ
      have hend' : x.2.minPosition + x.2.span = m.limit := hend
      omega
    rw [floor?_eq, m.tiles.1.floor_getLast hp, hlast]
    simp only [hgt, if_false]

/-- The run of the position does not wrap its stripe size. -/
theorem mulUInt32_size {s : MultiStripe} (h : s.size < 2 ^ 32) :
    mulUInt32 s.width s.slots = s.size := mulUInt32_of_lt h

/-! ## The search by id -/

/-- The stripes by id are the stripes by position under another key. -/
theorem toList_indexById (m : ObjectMap) :
    (indexById m.stripes).toList = m.stripes.toList.map (fun x => (x.2.baseId, x.2)) := by
  have hpair := m.tiles.2.pairwise
  unfold indexById
  -- every id emplaced is past the ones before it
  suffices h : ∀ (l : List Entry) (acc : StripeMap),
      (∀ y ∈ acc.toList, ∀ x ∈ l, y.1 < x.2.baseId) →
      l.Pairwise (fun a b => firstId a + ids a ≤ firstId b) →
      (l.foldl (fun byId s => byId.emplace s.2.baseId s.2) acc).toList =
        acc.toList ++ l.map (fun x => (x.2.baseId, x.2)) by
    simpa using h m.stripes.toList .empty (fun y hy => by cases hy) hpair
  intro l
  induction l with
  | nil =>
    intro acc _ _
    simp
  | cons x l ih =>
    intro acc hacc hl
    obtain ⟨hx, hl'⟩ := List.pairwise_cons.mp hl
    have hstep : (acc.emplace x.2.baseId x.2).toList = acc.toList ++ [(x.2.baseId, x.2)] :=
      OrderedMap.insertList_of_lt fun y hy => hacc y hy x (List.mem_cons_self ..)
    have hnext : ∀ y ∈ (acc.emplace x.2.baseId x.2).toList, ∀ z ∈ l, y.1 < z.2.baseId := by
      intro y hy z hz
      rw [hstep] at hy
      have hxz : x.2.baseId + x.2.instances ≤ z.2.baseId := hx z hz
      have hpos := x.2.instances_pos
      rcases List.mem_append.mp hy with hy | hy
      · have := hacc y hy x (List.mem_cons_self ..)
        omega
      · rw [List.mem_singleton.mp hy]
        show x.2.baseId < _
        omega
    rw [List.foldl_cons, ih _ hnext hl', hstep, List.map_cons, List.append_assoc]
    rfl

/-- The entry that holds a stripe id. -/
theorem floorById {m : ObjectMap} {id : Nat} (hid : id < m.nextStripeId) :
    ∃ x ∈ m.stripes.toList, InTile firstId ids x id ∧
      (indexById m.stripes).floor? id = some (x.2.baseId, x.2) := by
  obtain ⟨x, hfloor, hx, hin⟩ := m.tiles.2.floor_inTile (Nat.zero_le id) hid
  refine ⟨x, hx, hin, ?_⟩
  unfold OrderedMap.floor?
  rw [toList_indexById, List.filter_map, List.getLast?_map]
  have hcongr : m.stripes.toList.filter ((fun b : Entry => decide (b.1 ≤ id)) ∘
      fun x => (x.2.baseId, x.2)) = m.stripes.toList.filter (fun x => firstId x ≤ id) := rfl
  rw [hcongr, hfloor]
  rfl

end ObjectMap

/-- The stripe `k` of a run. -/
def MultiStripe.nth (s : MultiStripe) (k : Nat) (stripe : Stripe) : Prop :=
  stripe.stripeId = s.baseId + k ∧ stripe.width = s.width ∧
    stripe.minPosition = s.minPosition + k * s.size ∧
    stripe.maxPosition + 1 = s.minPosition + (k + 1) * s.size

/-- Every stripe of a run passes the assertions of its constructor. -/
theorem MultiStripe.stripeById_ok (s : MultiStripe) {k : Nat} (hk : k < s.instances) :
    ∃ stripe, s.stripeById (s.baseId + k) = .ok stripe ∧ s.nth k stripe := by
  have hsize := s.size_pos
  have hwidth := s.width_pos
  have hwle : s.width ≤ s.size := Nat.le_mul_of_pos_right _ s.slots_pos
  have hsucc : (k + 1) * s.size = k * s.size + s.size := Nat.succ_mul ..
  have hle : (k + 1) * s.size ≤ s.span := Nat.mul_le_mul_right _ hk
  have hmax := s.maxPosition_succ
  have hmaxId := s.maxStripeId_succ
  -- a stripe of positive id starts past 0
  have hmin : if 0 < s.baseId + k then 0 < s.minPosition + k * s.size
      else s.minPosition + k * s.size = 0 := by
    have hbase := s.min_pos
    rcases Nat.eq_zero_or_pos s.baseId with hb | hb
    · rw [if_neg (by omega)] at hbase
      rcases Nat.eq_zero_or_pos k with h0 | h0
      · rw [if_neg (by omega), h0]
        omega
      · have := Nat.mul_pos h0 hsize
        rw [if_pos (by omega)]
        omega
    · rw [if_pos hb] at hbase
      rw [if_pos (by omega)]
      omega
  -- the positions of a stripe are whole rows
  have hdvd : (s.minPosition + k * s.size + s.size - 1 - (s.minPosition + k * s.size) + 1) %
      s.width = 0 := by
    have hcancel : s.minPosition + k * s.size + s.size - 1 - (s.minPosition + k * s.size) + 1 =
        s.size := by omega
    rw [hcancel]
    exact Nat.mul_mod_right ..
  -- the assertions of `Stripe` hold for it
  refine ⟨⟨s.baseId + k, s.width, s.minPosition + k * s.size,
    s.minPosition + k * s.size + s.size - 1, hwidth, hmin, by omega, by omega, hdvd⟩, ?_, rfl, rfl,
    rfl, ?_⟩
  · have hoffset : s.baseId + k - s.baseId = k := by omega
    have hproduct : s.width * s.slots = s.size := rfl
    unfold stripeById
    dsimp only
    rw [hoffset, hproduct]
    rw [if_pos ⟨by omega, by omega, hk, hsize, by omega, by omega⟩]
    unfold Stripe.new
    rw [dif_pos ⟨hwidth, hmin, by omega, by omega, hdvd⟩]
  · show s.minPosition + k * s.size + s.size - 1 + 1 = _
    omega

/-! ## The stripes of a map -/

namespace ObjectMap

/-- Stripe `k` of a run. -/
abbrev Cell := MultiStripe × Nat

namespace Cell

/-- The first position of a stripe. -/
def minPosition (c : Cell) : Nat := c.1.minPosition + c.2 * c.1.size

/-- How many positions a stripe has. -/
def size (c : Cell) : Nat := c.1.size

/-- The id of a stripe. -/
def id (c : Cell) : Nat := c.1.baseId + c.2

end Cell

/-- The stripes of all runs, in order. -/
def cells (m : ObjectMap) : List Cell :=
  m.stripes.toList.flatMap fun x => (List.range x.2.instances).map fun k => (x.2, k)

/-- The stripes of a map are those of its runs. -/
theorem mem_cells {m : ObjectMap} {c : Cell} :
    c ∈ m.cells ↔ ∃ x ∈ m.stripes.toList, x.2 = c.1 ∧ c.2 < c.1.instances := by
  obtain ⟨s, k⟩ := c
  simp only [cells, List.mem_flatMap, List.mem_map, List.mem_range, Prod.mk.injEq]
  constructor
  · rintro ⟨x, hx, k', hk', rfl, rfl⟩
    exact ⟨x, hx, rfl, hk'⟩
  · rintro ⟨x, hx, rfl, hk⟩
    exact ⟨x, hx, k, hk, rfl, rfl⟩

/-- **The stripes tile the mapped positions.** -/
theorem cells_positions (m : ObjectMap) : Tiles Cell.minPosition Cell.size 0 m.cells m.limit := by
  apply m.tiles.1.flatMap
  intro x _
  apply (Tiles.uniform x.2.minPosition x.2.size x.2.instances).map
  · intro k _
    rfl
  · intro k _
    rfl

/-- The ids count up from 0. -/
theorem cells_ids (m : ObjectMap) : Tiles Cell.id (fun _ => 1) 0 m.cells m.nextStripeId := by
  apply m.tiles.2.flatMap
  intro x _
  have h := Tiles.uniform x.2.baseId 1 x.2.instances
  rw [Nat.mul_one] at h
  apply h.map
  · intro k _
    simp [Cell.id]
  · intro k _
    rfl

/-- There are as many stripes as ids. -/
theorem cells_length (m : ObjectMap) : m.cells.length = m.nextStripeId := by
  have h := m.cells_ids.length_of_units
  omega

/-- The index of a stripe is its id. -/
theorem cells_id {m : ObjectMap} {i : Nat} {c : Cell} (hc : m.cells[i]? = some c) : c.id = i := by
  have h := m.cells_ids.start_of_units hc
  omega

/-- A stripe stands at the place of its id. -/
theorem cells_getElem? {m : ObjectMap} {c : Cell} (hc : c ∈ m.cells) :
    m.cells[c.id]? = some c := by
  obtain ⟨i, hi⟩ := List.mem_iff_getElem?.mp hc
  rw [cells_id hi]
  exact hi

/-- The object of a position in a stripe. -/
def Cell.oid (c : Cell) (p : Nat) : String := Stripe.oidAt c.id (p % c.1.width)

/-- **The search by id** finds the stripe of every id below the next one. -/
theorem stripeById_cell {m : ObjectMap} {i : Nat} {c : Cell} (hc : m.cells[i]? = some c) :
    ∃ stripe, m.stripeById i = .ok stripe ∧ c.1.nth c.2 stripe := by
  have hmem := List.mem_of_getElem? hc
  obtain ⟨y, hy, hyc, hk⟩ := mem_cells.mp hmem
  have hid : c.1.baseId + c.2 = i := cells_id hc
  have hlt : i < m.nextStripeId := by
    rw [← m.cells_length]
    exact (List.getElem?_eq_some_iff.mp hc).1
  obtain ⟨x, hx, hin, hfloor⟩ := floorById hlt
  -- the run that the index finds is the one of the stripe
  have hxy : x = y := by
    apply m.tiles.2.unique hx hy hin
    unfold InTile firstId ids
    rw [hyc]
    omega
  rw [hxy, hyc] at hfloor
  obtain ⟨stripe, hok, hnth⟩ := c.1.stripeById_ok hk
  refine ⟨stripe, ?_, hnth⟩
  have hmaxId := c.1.maxStripeId_succ
  unfold ObjectMap.stripeById
  rw [hfloor]
  dsimp only
  rw [if_pos (by omega), ← hid, hok]

/-- Every id at or past the next one is refused. -/
theorem stripeById_lt {m : ObjectMap} {i : Nat} {stripe : Stripe}
    (hok : m.stripeById i = .ok stripe) : i < m.nextStripeId := by
  by_contra hge
  -- every run ends before an id that is too great
  have hpast : ∀ x ∈ m.stripes.toList, x.2.maxStripeId < i := by
    intro x hx
    have hb : x.2.baseId + x.2.instances ≤ m.nextStripeId := (m.tiles.2.bounds hx).2
    have := x.2.maxStripeId_succ
    omega
  unfold ObjectMap.stripeById at hok
  split at hok
  · cases hok
  · next y s hfloor =>
    have hmem : (y, s) ∈ (indexById m.stripes).toList :=
      (List.mem_filter.mp (List.mem_of_getLast? hfloor)).1
    rw [toList_indexById] at hmem
    obtain ⟨x, hx, hxs⟩ := List.mem_map.mp hmem
    cases hxs
    have hlt := hpast x hx
    rw [if_neg (by omega)] at hok
    cases hok

/-- A stripe that is found is one of the map. -/
theorem stripeById_cell_of_ok {m : ObjectMap} {i : Nat} {stripe : Stripe}
    (hok : m.stripeById i = .ok stripe) :
    ∃ c, m.cells[i]? = some c ∧ c.1.nth c.2 stripe := by
  have hlt := stripeById_lt hok
  rw [← m.cells_length] at hlt
  obtain ⟨stripe', hok', hnth⟩ := stripeById_cell (List.getElem?_eq_getElem hlt)
  rw [hok] at hok'
  cases hok'
  exact ⟨_, List.getElem?_eq_getElem hlt, hnth⟩

/-- No run is too large for the 32-bit product. -/
def Small (m : ObjectMap) : Prop := ∀ x ∈ m.stripes.toList, x.2.width * x.2.slots < 2 ^ 32

/-- The stripe that holds a mapped position. -/
theorem cell_of_lt {m : ObjectMap} {p : Nat} (hp : p < m.limit) :
    ∃ c ∈ m.cells, InTile Cell.minPosition Cell.size c p :=
  m.cells_positions.covers (Nat.zero_le p) hp

/-- In a run, the offset of a position over the stripe size is the number of its stripe. -/
theorem cell_offset {c : Cell} {p : Nat} (hin : InTile Cell.minPosition Cell.size c p) :
    (p - c.1.minPosition) / c.1.size = c.2 := by
  have hlo : c.1.minPosition + c.2 * c.1.size ≤ p := hin.1
  have hhi : p < c.1.minPosition + c.2 * c.1.size + c.1.size := hin.2
  have hsucc : (c.2 + 1) * c.1.size = c.2 * c.1.size + c.1.size := Nat.succ_mul ..
  rw [Nat.div_eq_iff c.1.size_pos]
  omega

/-- **The search by position** finds the stripe that holds it. -/
theorem findStripe_cell {m : ObjectMap} (hm : m.Small) {c : Cell} (hc : c ∈ m.cells) {p : Nat}
    (hin : InTile Cell.minPosition Cell.size c p) :
    m.findStripe p = .ok (some (c.1.minPosition, c.1, c.id)) := by
  obtain ⟨y, hy, hyc, hk⟩ := mem_cells.mp hc
  have hlt : p < m.limit := lt_of_lt_of_le hin.2 (m.cells_positions.bounds hc).2
  obtain ⟨x, hx, hxin, hfind⟩ := findStripe_mapped hlt
  -- the run that the lookup finds is the one of the stripe
  have hxy : x = y := by
    apply m.tiles.1.unique hx hy hxin
    have hlo : c.1.minPosition + c.2 * c.1.size ≤ p := hin.1
    have hhi : p < c.1.minPosition + c.2 * c.1.size + c.1.size := hin.2
    have hsucc : (c.2 + 1) * c.1.size = c.2 * c.1.size + c.1.size := Nat.succ_mul ..
    have hle : (c.2 + 1) * c.1.size ≤ c.1.span := Nat.mul_le_mul_right _ hk
    unfold InTile firstPosition positions
    rw [hyc]
    omega
  -- without a wrap, the 32-bit size is the exact one
  have hsize : mulUInt32 x.2.width x.2.slots = c.1.size := by
    rw [hxy, hyc]
    apply mulUInt32_size
    rw [← hyc]
    exact hm y hy
  have hkey : x.1 = c.1.minPosition := by
    rw [m.key_eq hx, hxy, hyc]
  have hx2 : x.2 = c.1 := by rw [hxy, hyc]
  have hpos := c.1.size_pos
  rw [hfind, hsize, if_neg (by omega), hkey, hx2, cell_offset hin]
  rfl

/-- The last stripe is the one before the next id. -/
theorem last_cell_iff {m : ObjectMap} {c : Cell} (hc : c ∈ m.cells) :
    (m.stripes.last?.map Prod.fst = some c.1.minPosition ∧ c.id = c.1.maxStripeId) ↔
      c.id + 1 = m.nextStripeId := by
  obtain ⟨y, hy, hyc, hk⟩ := mem_cells.mp hc
  have hmaxId := c.1.maxStripeId_succ
  obtain ⟨last, hlast⟩ := Option.ne_none_iff_exists'.mp
    (mt List.getLast?_eq_none_iff.mp (List.ne_nil_of_mem hy))
  have hlast' : m.stripes.last? = some last := hlast
  have hlmem : last ∈ m.stripes.toList := List.mem_of_getLast? hlast
  have hend : last.2.baseId + last.2.instances = m.nextStripeId := m.tiles.2.getLast_end hlast
  constructor
  · rintro ⟨hkey, hid⟩
    rw [hlast', Option.map_some, Option.some.injEq, m.key_eq hlmem] at hkey
    -- the two entries start at one position, so they are the same
    have hsame : last = y := by
      apply m.tiles.1.unique hlmem hy (p := last.2.minPosition)
      · exact ⟨Nat.le_refl _, Nat.lt_add_of_pos_right last.2.span_pos⟩
      · unfold InTile firstPosition positions
        rw [hyc, hkey]
        exact ⟨Nat.le_refl _, Nat.lt_add_of_pos_right c.1.span_pos⟩
    rw [hsame, hyc] at hend
    omega
  · intro hid
    have hid' : c.1.baseId + c.2 + 1 = m.nextStripeId := hid
    have hsame : last = y := by
      have hpos := last.2.instances_pos
      apply m.tiles.2.unique hlmem hy (p := c.id)
      · unfold InTile firstId ids Cell.id
        omega
      · unfold InTile firstId ids Cell.id
        rw [hyc]
        omega
    rw [hlast', Option.map_some, m.key_eq hlmem, hsame, hyc]
    refine ⟨rfl, ?_⟩
    rw [hsame, hyc] at hend
    show c.1.baseId + c.2 = _
    omega

/-- `map` on the positions of a stripe. -/
theorem map_cell {m : ObjectMap} (hm : m.Small) {c : Cell} (hc : c ∈ m.cells) {p : Nat}
    (hin : InTile Cell.minPosition Cell.size c p) :
    m.map p = .ok (some (c.oid p), decide (c.id + 1 = m.nextStripeId)) := by
  obtain ⟨y, hy, hyc, hk⟩ := mem_cells.mp hc
  have hmaxId := c.1.maxStripeId_succ
  have hmax := c.1.maxPosition_succ
  have hlo : c.1.minPosition + c.2 * c.1.size ≤ p := hin.1
  have hhi : p < c.1.minPosition + c.2 * c.1.size + c.1.size := hin.2
  have hsucc : (c.2 + 1) * c.1.size = c.2 * c.1.size + c.1.size := Nat.succ_mul ..
  have hle : (c.2 + 1) * c.1.size ≤ c.1.span := Nat.mul_le_mul_right _ hk
  -- the assertions of `MultiStripe::map` hold
  have hok : c.1.map c.id p = .ok (c.oid p) := by
    unfold MultiStripe.map
    rw [if_pos]
    · rfl
    · unfold Cell.id
      omega
  -- it is the last stripe when its id is the last one
  have hlast : ((m.stripes.last?.map Prod.fst = some c.1.minPosition) && (c.id = c.1.maxStripeId) :
      Bool) = decide (c.id + 1 = m.nextStripeId) := by
    rw [← Bool.decide_and, decide_eq_decide]
    exact last_cell_iff hc
  unfold ObjectMap.map
  rw [findStripe_cell hm hc hin]
  dsimp only
  rw [hok]
  dsimp only
  rw [hlast]

/-- Past the end no position is mapped. -/
theorem map_unmapped {m : ObjectMap} {p : Nat} (hp : m.limit ≤ p) : m.map p = .ok (none, false) := by
  unfold ObjectMap.map
  rw [findStripe_unmapped hp]

/-- `map_stripe` on the positions of a stripe. -/
theorem mapStripe_cell {m : ObjectMap} (hm : m.Small) {c : Cell} (hc : c ∈ m.cells) {p : Nat}
    (hin : InTile Cell.minPosition Cell.size c p) :
    ∃ stripe, m.mapStripe p = .ok (some stripe) ∧ m.stripeById c.id = .ok stripe ∧
      c.1.nth c.2 stripe := by
  obtain ⟨stripe, hok, hnth⟩ := stripeById_cell (cells_getElem? hc)
  refine ⟨stripe, ?_, hok, hnth⟩
  unfold ObjectMap.mapStripe
  rw [findStripe_cell hm hc hin]
  dsimp only
  rw [hok]

end ObjectMap

/-- The name of an object tells its stripe and its place in it. -/
theorem oidAt_injective {s i s' i' : Nat} (h : Stripe.oidAt s i = Stripe.oidAt s' i') :
    s = s' ∧ i = i' := by
  have hl := congrArg String.toList h
  have hs := Lib.dotFree_repr s
  have hs' := Lib.dotFree_repr s'
  unfold Stripe.oidAt at hl
  simp only [String.toList_append, List.append_assoc] at hl
  obtain ⟨h₁, h₂⟩ := Lib.dot_split (r := (toString i).toList) (s := (toString i').toList) hs hs'
    (by simpa using hl)
  exact ⟨Lib.toString_nat_injective (String.toList_inj.mp h₁),
    Lib.toString_nat_injective (String.toList_inj.mp h₂)⟩


/-! ## The partition -/

namespace ObjectMap

/-- The position maps to the object. -/
def Names (m : ObjectMap) (p : Nat) (oid : String) : Prop := ∃ last, m.map p = .ok (some oid, last)

/-- Whether a position has this name can be computed. -/
instance (m : ObjectMap) (p : Nat) (oid : String) : Decidable (m.Names p oid) :=
  decidable_of_iff (m.map p = .ok (some oid, true) ∨ m.map p = .ok (some oid, false)) (by
    unfold Names
    simp [or_comm])

/-- A position maps to an object exactly when it lies in a stripe that has the object. -/
theorem names_iff {m : ObjectMap} (hm : m.Small) {p : Nat} {oid : String} :
    m.Names p oid ↔ ∃ c ∈ m.cells, InTile Cell.minPosition Cell.size c p ∧ oid = c.oid p := by
  constructor
  · rintro ⟨last, hmap⟩
    have hlt : p < m.limit := by
      by_contra hge
      rw [map_unmapped (by omega)] at hmap
      cases hmap
    obtain ⟨c, hc, hin⟩ := cell_of_lt hlt
    rw [map_cell hm hc hin] at hmap
    cases hmap
    exact ⟨c, hc, hin, rfl⟩
  · rintro ⟨c, hc, hin, rfl⟩
    exact ⟨_, map_cell hm hc hin⟩

/-- The names of a stripe tell it and the object within it apart. -/
theorem names_oidAt_iff {m : ObjectMap} (hm : m.Small) {c : Cell} (hc : c ∈ m.cells) {i p : Nat} :
    m.Names p (Stripe.oidAt c.id i) ↔
      InTile Cell.minPosition Cell.size c p ∧ p % c.1.width = i := by
  rw [names_iff hm]
  constructor
  · rintro ⟨d, hd, hin, hoid⟩
    obtain ⟨hid, hi⟩ := oidAt_injective hoid
    have hcd : c = d := by
      have h₁ := cells_getElem? hc
      have h₂ := cells_getElem? hd
      rw [hid, h₂] at h₁
      exact (Option.some.inj h₁).symm
    rw [hcd]
    exact ⟨hin, hi.symm⟩
  · rintro ⟨hin, rfl⟩
    exact ⟨c, hc, hin, rfl⟩

/-- `k` rounds over `w` objects give each of them `k` positions. -/
theorem card_object (lo k : Nat) {w i : Nat} (hi : i < w) :
    ((Finset.Ico lo (lo + k * w)).filter (fun p => p % w = i)).card = k := by
  have hw : 0 < w := by omega
  have hmod : ∀ p, p % w = i ↔ p ≡ i [MOD w] := by
    intro p
    rw [Nat.ModEq, Nat.mod_eq_of_lt hi]
  simp only [hmod]
  have hcard := Nat.Ico_filter_modEq_card lo (lo + k * w) hw i
  have hwq : (w : ℚ) ≠ 0 := by
    exact_mod_cast hw.ne'
  -- as many rows as the interval is long
  have hsplit : ((lo + k * w : ℕ) - (i : ℚ)) / w = (lo - i : ℚ) / w + k := by
    push_cast
    field_simp
    ring
  rw [hsplit, Int.ceil_add_natCast] at hcard
  have hcast : (((Finset.Ico lo (lo + k * w)).filter (fun p => p ≡ i [MOD w])).card : ℤ) = k := by
    rw [hcard]
    have hnonneg : (0 : ℤ) ≤ k := Int.natCast_nonneg k
    omega
  exact_mod_cast hcast

/-- The stripes of the map partition the mapped positions, and the searches by position and by id
    follow the partition. -/
structure IsPartition (m : ObjectMap) : Prop where
  /-- `stripe_by_id` trips no assertion below the next id. -/
  byId : ∀ i < m.nextStripeId, ∃ s, m.stripeById i = .ok s ∧ s.stripeId = i
  /-- In id order the stripes cover the positions from 0 on without gap or overlap. -/
  first : ∀ s, m.stripeById 0 = .ok s → s.minPosition = 0
  next : ∀ i s t, m.stripeById i = .ok s → m.stripeById (i + 1) = .ok t →
    t.minPosition = s.maxPosition + 1
  last : ∀ i s, m.nextStripeId = i + 1 → m.stripeById i = .ok s → s.maxPosition = m.maxPosition
  /-- `map` gives a name exactly to the positions up to the maximum. -/
  mapped : ∀ p, (∃ oid, m.Names p oid) ↔ m.empty = false ∧ p ≤ m.maxPosition
  unmapped : ∀ p, (¬ ∃ oid, m.Names p oid) → m.map p = .ok (none, false)
  /-- `map_stripe` gives the one stripe that holds the position; the name is one of its objects;
      the flag says whether it is the last stripe. -/
  stripe : ∀ p, m.empty = false → p ≤ m.maxPosition →
    ∃ s, m.mapStripe p = .ok (some s) ∧ m.stripeById s.stripeId = .ok s ∧
      s.minPosition ≤ p ∧ p ≤ s.maxPosition ∧
      (∀ i t, m.stripeById i = .ok t → t.minPosition ≤ p → p ≤ t.maxPosition → t = s) ∧
      ∃ oid ∈ s.oids, m.map p = .ok (some oid, decide (s.stripeId + 1 = m.nextStripeId))
  /-- Each object of a stripe has one position for each slot, all in the stripe. -/
  slots : ∀ i s, m.stripeById i = .ok s → ∃ x ∈ m.stripes.toList,
    x.2.baseId ≤ i ∧ i ≤ x.2.maxStripeId ∧ ∀ oid ∈ s.oids,
      (∀ p, m.Names p oid → s.minPosition ≤ p ∧ p ≤ s.maxPosition) ∧
      ((Finset.range (m.maxPosition + 1)).filter (fun p => m.Names p oid)).card = x.2.slots

/-- The bounds of a stripe, in both ways of writing them. -/
theorem MultiStripe_nth_bounds {c : Cell} {s : Stripe} (h : c.1.nth c.2 s) (p : Nat) :
    InTile Cell.minPosition Cell.size c p ↔ s.minPosition ≤ p ∧ p ≤ s.maxPosition := by
  obtain ⟨-, -, hmin, hmax⟩ := h
  have hsucc : (c.2 + 1) * c.1.size = c.2 * c.1.size + c.1.size := Nat.succ_mul ..
  unfold InTile Cell.minPosition Cell.size
  omega

/-- **Partition**: every valid map without a run too large for the 32-bit product. -/
theorem isPartition {m : ObjectMap} (hm : m.Small) : m.IsPartition := by
  -- the positions that are mapped are those below the end
  have hnames : ∀ p, (∃ oid, m.Names p oid) ↔ p < m.limit := by
    intro p
    constructor
    · rintro ⟨oid, last, hmap⟩
      by_contra hge
      rw [map_unmapped (by omega)] at hmap
      cases hmap
    · intro hlt
      obtain ⟨c, hc, hin⟩ := cell_of_lt hlt
      exact ⟨_, _, map_cell hm hc hin⟩
  have hlimit : ∀ p, p < m.limit ↔ m.empty = false ∧ p ≤ m.maxPosition := by
    intro p
    cases he : m.empty with
    | true =>
      rw [m.empty_iff_limit.mp he]
      simp
    | false =>
      rw [m.limit_eq he]
      simp only [true_and]
      omega
  refine ⟨?_, ?_, ?_, ?_, ?_, ?_, ?_, ?_⟩
  · -- every id up to the last one has a stripe
    intro i hi
    rw [← m.cells_length] at hi
    have hc := List.getElem?_eq_getElem hi
    obtain ⟨s, hok, hnth⟩ := stripeById_cell hc
    exact ⟨s, hok, hnth.1.trans (cells_id hc)⟩
  · -- the first stripe starts at the first position
    intro s hok
    obtain ⟨c, hc, hnth⟩ := stripeById_cell_of_ok hok
    have htiles := m.cells_positions
    cases hcells : m.cells with
    | nil =>
      rw [hcells] at hc
      cases hc
    | cons d l =>
      rw [hcells] at hc htiles
      cases hc
      cases htiles with
      | cons hstart _ => exact hnth.2.2.1.trans hstart
  · -- each stripe starts where the one before ends
    intro i s t hs ht
    obtain ⟨c, hc, hnth⟩ := stripeById_cell_of_ok hs
    obtain ⟨d, hd, hnth'⟩ := stripeById_cell_of_ok ht
    have hsucc := m.cells_positions.getElem?_succ hc hd
    have hmul : (c.2 + 1) * c.1.size = c.2 * c.1.size + c.1.size := Nat.succ_mul ..
    unfold Cell.minPosition Cell.size at hsucc
    rw [hnth'.2.2.1, hnth.2.2.2]
    omega
  · -- the last stripe ends at the last position
    intro i s hnext hs
    obtain ⟨c, hc, hnth⟩ := stripeById_cell_of_ok hs
    have hlast : m.cells.getLast? = some c := by
      rw [List.getLast?_eq_getElem?, m.cells_length, hnext]
      exact hc
    have hend := m.cells_positions.getLast_end hlast
    have hmul : (c.2 + 1) * c.1.size = c.2 * c.1.size + c.1.size := Nat.succ_mul ..
    have he : m.empty = false := by
      by_contra hne
      rw [Bool.not_eq_false, m.empty_iff_limit] at hne
      have := c.1.size_pos
      unfold Cell.minPosition Cell.size at hend
      omega
    rw [m.limit_eq he] at hend
    unfold Cell.minPosition Cell.size at hend
    have := hnth.2.2.2
    omega
  · -- exactly the positions up to the last one are mapped
    intro p
    rw [hnames, hlimit]
  · -- a position past the end is not an error
    intro p hno
    rw [hnames] at hno
    exact map_unmapped (by omega)
  · -- a mapped position lies in one stripe, and in no other
    intro p he hp
    obtain ⟨c, hc, hin⟩ := cell_of_lt ((hlimit p).mpr ⟨he, hp⟩)
    obtain ⟨s, hmap, hok, hnth⟩ := mapStripe_cell hm hc hin
    have hbounds := (MultiStripe_nth_bounds hnth p).mp hin
    refine ⟨s, hmap, ?_, hbounds.1, hbounds.2, ?_, c.oid p, ?_, ?_⟩
    · rw [hnth.1]
      exact hok
    · intro i t ht hlo hhi
      obtain ⟨d, hd, hnth'⟩ := stripeById_cell_of_ok ht
      have hin' := (MultiStripe_nth_bounds hnth' p).mpr ⟨hlo, hhi⟩
      have hcd := m.cells_positions.unique (List.mem_of_getElem? hd) hc hin' hin
      rw [hcd] at hd
      rw [← cells_id hd, hok] at ht
      exact (Except.ok.inj ht).symm
    · unfold Stripe.oids Stripe.makeOids Cell.oid
      rw [hnth.1, hnth.2.1]
      exact List.mem_map_of_mem (List.mem_range.mpr (Nat.mod_lt _ c.1.width_pos))
    · rw [map_cell hm hc hin, hnth.1]
      rfl
  · -- the objects of a stripe have its positions, each of them `slots` many
    intro i s hs
    obtain ⟨c, hc, hnth⟩ := stripeById_cell_of_ok hs
    have hmem := List.mem_of_getElem? hc
    obtain ⟨x, hx, hxc, hk⟩ := mem_cells.mp hmem
    have hid : c.1.baseId + c.2 = i := cells_id hc
    have hmaxId := c.1.maxStripeId_succ
    refine ⟨x, hx, by rw [hxc]; omega, by rw [hxc]; omega, ?_⟩
    intro oid hoid
    unfold Stripe.oids Stripe.makeOids at hoid
    rw [hnth.1, hnth.2.1] at hoid
    obtain ⟨j, hj, rfl⟩ := List.mem_map.mp hoid
    rw [List.mem_range] at hj
    have hiff : ∀ p, m.Names p (Stripe.oidAt (c.1.baseId + c.2) j) ↔
        InTile Cell.minPosition Cell.size c p ∧ p % c.1.width = j :=
      fun p => names_oidAt_iff hm hmem
    constructor
    · -- no position outside of the stripe has a name of the stripe
      intro p hp
      exact (MultiStripe_nth_bounds hnth p).mp ((hiff p).mp hp).1
    · -- the positions of an object: one in each row of the stripe
      have hset : (Finset.range (m.maxPosition + 1)).filter
          (fun p => m.Names p (Stripe.oidAt (c.1.baseId + c.2) j)) =
          (Finset.Ico c.minPosition (c.minPosition + c.1.slots * c.1.width)).filter
            (fun p => p % c.1.width = j) := by
        ext p
        have hsize : c.1.slots * c.1.width = c.size := Nat.mul_comm _ _
        simp only [Finset.mem_filter, Finset.mem_range, Finset.mem_Ico, hiff, hsize]
        constructor
        · rintro ⟨-, hin, hmod⟩
          exact ⟨hin, hmod⟩
        · rintro ⟨hin, hmod⟩
          have hlt : p < m.limit := lt_of_lt_of_le hin.2 (m.cells_positions.bounds hmem).2
          have hle := ((hlimit p).mp hlt).2
          exact ⟨by omega, hin, hmod⟩
      rw [hset, card_object _ _ hj, hxc]

end ObjectMap

end ZLog
