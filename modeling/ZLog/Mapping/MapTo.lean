import ZLog.Mapping.Expansion

/-!
# The objects of a range trim

`map_to` walks the stripes of a map and lists the objects that hold positions up to a given one,
each with a flag that says whether it holds no others.  It takes the first position of a stripe for
a position of object 0, which `map` does not do unless that position is a multiple of the width.

## Main results

- `mapToRun_cells`: the iteration ends, and what it lists.
- `mapTo_exact`: when the listing is the right one.
-/

namespace ZLog

open Lib

namespace ObjectMap

variable {m : ObjectMap} {p : Nat}

/-! ## The iteration -/

/-- Calls of `map_to` from a stripe id on until `done` is set, and the objects they list. -/
inductive MapToRun (m : ObjectMap) (p : Nat) : Nat → List (String × Bool) → Prop where
  | done {id : Nat} : m.mapTo p id = .ok .done → MapToRun m p id []
  | step {id id' : Nat} {objects rest : List (String × Bool)} :
      m.mapTo p id = .ok (.objects objects id') → MapToRun m p id' rest →
      MapToRun m p id (objects ++ rest)

/-- The iteration has one outcome. -/
theorem MapToRun.unique {id : Nat} {l l' : List (String × Bool)} (h : MapToRun m p id l)
    (h' : MapToRun m p id l') : l = l' := by
  induction h generalizing l' with
  | done hd =>
    cases h' with
    | done _ => rfl
    | step hs _ =>
      rw [hd] at hs
      cases hs
  | step hs _ ih =>
    cases h' with
    | done hd =>
      rw [hs] at hd
      cases hd
    | step hs' hrest =>
      rw [hs] at hs'
      cases hs'
      rw [ih hrest]

/-- What `map_to` says of one stripe. -/
def Cell.objects (c : Cell) (p : Nat) : List (String × Bool) :=
  (List.range c.1.width).filterMap fun i =>
    if c.minPosition + c.size - c.1.width + i ≤ p then some (Stripe.oidAt c.id i, true)
    else if c.minPosition + i ≤ p then some (Stripe.oidAt c.id i, false)
    else none

theorem width_le_size (s : MultiStripe) : s.width ≤ s.size := Nat.le_mul_of_pos_right _ s.slots_pos

theorem mapToObjects_cell {c : Cell} {s : Stripe} (h : c.1.nth c.2 s) :
    mapToObjects s p = c.objects p := by
  obtain ⟨hid, hw, hmin, hmax⟩ := h
  have hsucc : (c.2 + 1) * c.1.size = c.2 * c.1.size + c.1.size := Nat.succ_mul ..
  have hwle := width_le_size c.1
  have hwpos := c.1.width_pos
  have hbase : s.maxPosition - (c.1.width - 1) = c.minPosition + c.size - c.1.width := by
    unfold Cell.minPosition Cell.size
    omega
  unfold mapToObjects Cell.objects
  rw [hw, hid, hmin, hbase]
  rfl

/-- Nothing is listed of a stripe past the position. -/
theorem Cell.objects_nil {c : Cell} (h : p < c.minPosition) : c.objects p = [] := by
  have hwle := width_le_size c.1
  unfold Cell.objects
  rw [List.filterMap_eq_nil_iff]
  intro i _
  have hsize : c.size = c.1.size := rfl
  rw [if_neg (by omega), if_neg (by omega)]

/-- One call of `map_to` for a mapped position. -/
theorem mapTo_cell (hp : ∃ oid, m.Names p oid) {id : Nat} {c : Cell} (hc : m.cells[id]? = some c) :
    m.mapTo p id = .ok (.objects (c.objects p) (id + 1)) := by
  obtain ⟨oid, last, hmap⟩ := hp
  have hid : id < m.nextStripeId := by
    rw [← m.cells_length]
    exact (List.getElem?_eq_some_iff.mp hc).1
  obtain ⟨s, hok, hnth⟩ := stripeById_cell hc
  unfold ObjectMap.mapTo numStripes
  rw [hmap]
  dsimp only
  rw [if_neg (by omega), hok]
  dsimp only
  have hmin : s.minPosition = c.minPosition := hnth.2.2.1
  split
  · next hlt => rw [Cell.objects_nil (by omega)]
  · rw [mapToObjects_cell hnth]

/-- **The iteration ends** after the last stripe; it lists the objects stripe by stripe. -/
theorem mapToRun_cells (hp : ∃ oid, m.Names p oid) :
    MapToRun m p 0 (m.cells.flatMap fun c => c.objects p) := by
  -- by induction on the stripes that are left
  suffices h : ∀ (rest done : List Cell), m.cells = done ++ rest →
      MapToRun m p done.length (rest.flatMap fun c => c.objects p) from h m.cells [] rfl
  intro rest
  induction rest with
  | nil =>
    intro done hcells
    rw [List.append_nil] at hcells
    apply MapToRun.done
    obtain ⟨oid, last, hmap⟩ := hp
    unfold ObjectMap.mapTo numStripes
    rw [hmap]
    dsimp only
    rw [← m.cells_length, hcells, if_pos (Nat.le_refl _)]
  | cons c rest ih =>
    intro done hcells
    have hc : m.cells[done.length]? = some c := by
      rw [hcells, List.getElem?_append_right (Nat.le_refl _), Nat.sub_self]
      rfl
    have hrest := ih (done ++ [c]) (by rw [hcells, List.append_assoc, List.singleton_append])
    rw [List.length_append, List.length_singleton] at hrest
    rw [List.flatMap_cons]
    exact .step (mapTo_cell hp hc) hrest

/-! ## Positions of one object in a stripe -/

/-- Among `w` consecutive numbers every residue occurs. -/
theorem exists_residue (a : Nat) {w i : Nat} (hi : i < w) : ∃ q, a ≤ q ∧ q < a + w ∧ q % w = i := by
  have hw : 0 < w := by omega
  have hr := Nat.mod_lt a hw
  have hdiv := Nat.div_add_mod a w
  by_cases h : a % w ≤ i
  · refine ⟨w * (a / w) + i, by omega, by omega, ?_⟩
    rw [Nat.mul_add_mod, Nat.mod_eq_of_lt hi]
  · have hmul : w * (a / w + 1) = w * (a / w) + w := Nat.mul_succ ..
    refine ⟨w * (a / w + 1) + i, by omega, by omega, ?_⟩
    rw [Nat.mul_add_mod, Nat.mod_eq_of_lt hi]

/-- What is listed of a stripe is right: the objects with positions up to `p`, and the flag is set
    for those without later ones. -/
def Cell.Right (c : Cell) (p : Nat) : Prop :=
  ∀ i < c.1.width,
    (c.minPosition + i ≤ p ↔
      ∃ q ≤ p, InTile Cell.minPosition Cell.size c q ∧ q % c.1.width = i) ∧
    (c.minPosition + i ≤ p → (c.minPosition + c.size - c.1.width + i ≤ p ↔
      ∀ q, InTile Cell.minPosition Cell.size c q → q % c.1.width = i → q ≤ p))

/-- A stripe that ends at or before the position is listed right. -/
theorem Cell.right_of_past {c : Cell} (h : c.minPosition + c.size ≤ p + 1) : c.Right p := by
  have hwle : c.1.width ≤ c.size := width_le_size c.1
  intro i hi
  constructor
  · refine ⟨fun _ => ?_, fun _ => by omega⟩
    obtain ⟨q, hlo, hhi, hmod⟩ := exists_residue c.minPosition hi
    exact ⟨q, by omega, ⟨hlo, by omega⟩, hmod⟩
  · intro _
    refine ⟨fun _ q hq _ => ?_, fun _ => by omega⟩
    have hlt := hq.2
    omega

/-- A stripe past the position is listed right. -/
theorem Cell.right_of_before {c : Cell} (h : p < c.minPosition) : c.Right p := by
  intro i _
  constructor
  · refine ⟨fun hle => by omega, ?_⟩
    rintro ⟨q, hq, hin, -⟩
    have hlo := hin.1
    omega
  · intro hle
    omega

/-- In a stripe that starts at a multiple of its width object `i` has its first position at offset
    `i`, and its last one at the same distance from the end as object 0 less `i`. -/
theorem Cell.right_of_aligned {c : Cell} (h : c.minPosition % c.1.width = 0) : c.Right p := by
  have hwle : c.1.width ≤ c.size := width_le_size c.1
  have hwpos := c.1.width_pos
  obtain ⟨a, ha⟩ := Nat.dvd_of_mod_eq_zero h
  have hend : c.minPosition + c.size = c.1.width * (a + c.1.slots) := by
    have hsize : c.size = c.1.width * c.1.slots := rfl
    rw [ha, hsize, Nat.mul_add]
  -- a position of object `i` is a multiple of the width plus `i`
  have hsplit : ∀ q i, q % c.1.width = i → q = c.1.width * (q / c.1.width) + i := by
    intro q i hq
    rw [← hq]
    exact (Nat.div_add_mod q c.1.width).symm
  intro i hi
  constructor
  · constructor
    · intro hle
      refine ⟨c.minPosition + i, hle, ⟨by omega, by omega⟩, ?_⟩
      rw [ha, Nat.mul_add_mod, Nat.mod_eq_of_lt hi]
    · rintro ⟨q, hq, hin, hmod⟩
      have hlo := hin.1
      have hq' := hsplit q i hmod
      have hdiv : a ≤ q / c.1.width := by
        rw [Nat.le_div_iff_mul_le hwpos, Nat.mul_comm]
        omega
      have hmul := Nat.mul_le_mul_left c.1.width hdiv
      omega
  · intro _
    constructor
    · intro hfull q hin hmod
      have hhi := hin.2
      have hq' := hsplit q i hmod
      have hdiv : q / c.1.width + 1 ≤ a + c.1.slots := by
        rw [hend] at hhi
        exact Nat.div_lt_of_lt_mul hhi
      have hmul := Nat.mul_le_mul_left c.1.width hdiv
      rw [Nat.mul_succ, ← hend] at hmul
      omega
    · intro hall
      apply hall
      · exact ⟨by omega, by omega⟩
      · have hslots := c.1.slots_pos
        have hlast : c.minPosition + c.size - c.1.width + i =
            c.1.width * (a + c.1.slots - 1) + i := by
          have hsucc : a + c.1.slots = a + c.1.slots - 1 + 1 := by omega
          rw [hend, hsucc, Nat.mul_succ, Nat.add_sub_cancel, Nat.add_sub_cancel]
        rw [hlast, Nat.mul_add_mod, Nat.mod_eq_of_lt hi]

/-- **One stripe**: the listing of the stripe that holds the position is right exactly when the
    stripe starts at a multiple of its width, or the position is past its first round and not in
    its last one, or it is the last position. -/
theorem Cell.right_iff {c : Cell} (hin : InTile Cell.minPosition Cell.size c p) :
    c.Right p ↔ c.minPosition % c.1.width = 0 ∨
      (c.minPosition + c.1.width ≤ p + 1 ∧
        (p + 1 = c.minPosition + c.size ∨ p + c.1.width < c.minPosition + c.size)) := by
  have hwle : c.1.width ≤ c.size := width_le_size c.1
  have hwpos := c.1.width_pos
  have hplo := hin.1
  have hphi := hin.2
  constructor
  · intro hright
    by_contra hno
    rw [not_or] at hno
    obtain ⟨hmis, hno⟩ := hno
    -- a multiple of the width past the first position has a position of the last object before it
    have hprev : ∀ q, 0 < q → q % c.1.width = 0 → (q - 1) % c.1.width = c.1.width - 1 := by
      intro q hq hmod
      obtain ⟨b, rfl⟩ := Nat.dvd_of_mod_eq_zero hmod
      have hb : 0 < b := Nat.pos_of_mul_pos_left hq
      have hsucc : c.1.width * b = c.1.width * (b - 1) + c.1.width := by
        rw [← Nat.mul_succ]
        congr 1
        omega
      have heq : c.1.width * b - 1 = c.1.width * (b - 1) + (c.1.width - 1) := by omega
      rw [heq, Nat.mul_add_mod, Nat.mod_eq_of_lt (by omega)]
    by_cases hfirst : c.minPosition + c.1.width ≤ p + 1
    · -- in the last round the flags of the last object and of object 0 disagree
      have hlisted : ∀ i < c.1.width, c.minPosition + i ≤ p := fun i hi => by omega
      have hlast := (hright (c.1.width - 1) (by omega)).2 (hlisted _ (by omega))
      have hzero := (hright 0 hwpos).2 (hlisted 0 hwpos)
      have hnot : ¬ ∀ q, InTile Cell.minPosition Cell.size c q → q % c.1.width = c.1.width - 1 →
          q ≤ p := by
        rw [← hlast]
        omega
      push Not at hnot
      obtain ⟨q, hqin, hqmod, hqp⟩ := hnot
      have hqhi := hqin.2
      have hqnext : (q + 1) % c.1.width = 0 := by
        have hdiv := Nat.div_add_mod q c.1.width
        have hmul : c.1.width * (q / c.1.width + 1) = c.1.width * (q / c.1.width) + c.1.width :=
          Nat.mul_succ ..
        have heq : q + 1 = c.1.width * (q / c.1.width + 1) := by omega
        rw [heq]
        exact Nat.mul_mod_right ..
      have hqlt : q + 1 < c.minPosition + c.size := by
        rcases Nat.lt_or_ge (q + 1) (c.minPosition + c.size) with h | h
        · exact h
        · have heq : q + 1 = c.minPosition + c.size := by omega
          have hsize : c.size = c.1.width * c.1.slots := rfl
          rw [heq, hsize, Nat.add_mul_mod_self_left] at hqnext
          exact absurd hqnext hmis
      have hqlo := hqin.1
      have hflag : ¬ c.minPosition + c.size - c.1.width + 0 ≤ p := by
        rw [hzero]
        intro hall
        have hle := hall (q + 1) ⟨by omega, hqlt⟩ hqnext
        omega
      omega
    · -- in the first round object 0 has a position up to `p` only behind one of the last object
      obtain ⟨q, hqp, hqin, hqmod⟩ := (hright 0 hwpos).1.mp (by omega)
      have hqlo := hqin.1
      have hqhi := hqin.2
      have hne : q ≠ c.minPosition := by
        rintro rfl
        exact hmis hqmod
      have hq1 := hprev q (by omega) hqmod
      have hle := (hright (c.1.width - 1) (by omega)).1.mpr
        ⟨q - 1, by omega, ⟨by omega, by omega⟩, hq1⟩
      omega
  · rintro (haligned | ⟨hfirst, hlast⟩)
    · exact Cell.right_of_aligned haligned
    · rcases hlast with hend | hround
      · exact Cell.right_of_past (by omega)
      · intro i hi
        constructor
        · refine ⟨fun _ => ?_, fun _ => by omega⟩
          obtain ⟨q, hlo, hhi, hmod⟩ := exists_residue c.minPosition hi
          exact ⟨q, by omega, ⟨hlo, by omega⟩, hmod⟩
        · intro _
          constructor
          · intro hfull
            omega
          · -- every object has a position in the round behind `p`
            intro hall
            obtain ⟨q, hlo, hhi, hmod⟩ := exists_residue (p + 1) hi
            have hle := hall q ⟨by omega, by omega⟩ hmod
            omega

/-! ## The whole listing -/

theorem Cell.mem_objects {c : Cell} {oid : String} {full : Bool} :
    (oid, full) ∈ c.objects p ↔ ∃ i < c.1.width, oid = Stripe.oidAt c.id i ∧
      c.minPosition + i ≤ p ∧ full = decide (c.minPosition + c.size - c.1.width + i ≤ p) := by
  have hwle : c.1.width ≤ c.size := width_le_size c.1
  unfold Cell.objects
  rw [List.mem_filterMap]
  constructor
  · rintro ⟨i, hi, hsome⟩
    rw [List.mem_range] at hi
    refine ⟨i, hi, ?_⟩
    split at hsome
    · next hfull =>
      cases hsome
      exact ⟨rfl, by omega, (decide_eq_true hfull).symm⟩
    · next hfull =>
      split at hsome
      · next hle =>
        cases hsome
        exact ⟨rfl, hle, (decide_eq_false hfull).symm⟩
      · cases hsome
  · rintro ⟨i, hi, rfl, hle, rfl⟩
    refine ⟨i, List.mem_range.mpr hi, ?_⟩
    by_cases hfull : c.minPosition + c.size - c.1.width + i ≤ p
    · rw [if_pos hfull, decide_eq_true hfull]
    · rw [if_neg hfull, if_pos hle, decide_eq_false hfull]

theorem mem_listing {oid : String} {full : Bool} :
    (oid, full) ∈ m.cells.flatMap (fun c => c.objects p) ↔
      ∃ c ∈ m.cells, ∃ i < c.1.width, oid = Stripe.oidAt c.id i ∧
        c.minPosition + i ≤ p ∧ full = decide (c.minPosition + c.size - c.1.width + i ≤ p) := by
  simp only [List.mem_flatMap, Cell.mem_objects]

/-- Two stripes with one id are the same. -/
theorem cell_ext {c d : Cell} (hc : c ∈ m.cells) (hd : d ∈ m.cells) (h : c.id = d.id) : c = d := by
  have h₁ := cells_getElem? hc
  have h₂ := cells_getElem? hd
  rw [h, h₂] at h₁
  exact (Option.some.inj h₁).symm

/-- No object is listed twice. -/
theorem listing_nodup (m : ObjectMap) (p : Nat) :
    ((m.cells.flatMap fun c => c.objects p).map Prod.fst).Nodup := by
  rw [List.map_flatMap]
  apply List.nodup_flatMap.mpr
  constructor
  · intro c _
    -- within a stripe the names differ in the index
    have hnames : (c.objects p).map Prod.fst =
        ((List.range c.1.width).filter fun i => c.minPosition + i ≤ p).map
          (Stripe.oidAt c.id) := by
      have hwle : c.1.width ≤ c.size := width_le_size c.1
      unfold Cell.objects
      rw [List.map_filterMap, ← List.filterMap_eq_map, List.filterMap_filter]
      apply List.filterMap_congr
      intro i _
      by_cases hle : c.minPosition + i ≤ p
      · by_cases hfull : c.minPosition + c.size - c.1.width + i ≤ p <;> simp [hle, hfull]
      · have hfull : ¬ c.minPosition + c.size - c.1.width + i ≤ p := by omega
        simp [hle, hfull]
    rw [hnames]
    exact (List.nodup_range.filter _).map fun i j h => (oidAt_injective h).2
  · -- between stripes they differ in the id
    apply (m.cells_ids.pairwise).imp
    intro c d hcd
    rw [Function.onFun, List.disjoint_left]
    intro oid hc hd
    obtain ⟨⟨o, f⟩, hof, rfl⟩ := List.mem_map.mp hc
    obtain ⟨⟨o', f'⟩, hof', ho⟩ := List.mem_map.mp hd
    obtain ⟨i, -, hoi, -⟩ := Cell.mem_objects.mp hof
    obtain ⟨j, -, hoj, -⟩ := Cell.mem_objects.mp hof'
    have hid := (oidAt_injective (hoi.symm.trans (ho.symm.trans hoj))).1
    omega

/-- The iteration of `map_to` up to `p` ends; it lists every object that holds a position up to `p`
    exactly once and no other, and flags those that hold no later position. -/
def MapToExact (m : ObjectMap) (p : Nat) : Prop :=
  ∃ l, MapToRun m p 0 l ∧ (l.map Prod.fst).Nodup ∧
    (∀ oid, (∃ full, (oid, full) ∈ l) ↔ ∃ q ≤ p, m.Names q oid) ∧
    ∀ oid full, (oid, full) ∈ l → (full = true ↔ ∀ q, m.Names q oid → q ≤ p)

/-- The stripe of `p` starts at a multiple of its width, or `p` is past the first round over its
    objects and is its last position or not in the last round. -/
def StripeAligned (m : ObjectMap) (p : Nat) : Prop :=
  ∀ s, m.mapStripe p = .ok (some s) → s.minPosition % s.width = 0 ∨
    (s.minPosition + s.width ≤ p + 1 ∧ (p = s.maxPosition ∨ p + s.width ≤ s.maxPosition))

/-- The listing is right when it is right in every stripe. -/
theorem mapToExact_iff_right (hm : m.Small) (hp : ∃ oid, m.Names p oid) :
    m.MapToExact p ↔ ∀ c ∈ m.cells, c.Right p := by
  have hnames : ∀ c ∈ m.cells, ∀ i q, m.Names q (Stripe.oidAt c.id i) ↔
      InTile Cell.minPosition Cell.size c q ∧ q % c.1.width = i :=
    fun c hc i q => names_oidAt_iff hm hc
  constructor
  · rintro ⟨l, hrun, -, hlisted, hflags⟩ c hc i hi
    rw [hrun.unique (mapToRun_cells hp)] at hlisted hflags
    constructor
    · have h := hlisted (Stripe.oidAt c.id i)
      simp only [hnames c hc] at h
      rw [← h]
      constructor
      · intro hle
        exact ⟨_, mem_listing.mpr ⟨c, hc, i, hi, rfl, hle, rfl⟩⟩
      · rintro ⟨full, hmem⟩
        obtain ⟨d, hd, j, -, hoid, hle, -⟩ := mem_listing.mp hmem
        obtain ⟨hid, rfl⟩ := oidAt_injective hoid
        rw [cell_ext hc hd hid]
        exact hle
    · intro hle
      have h := hflags _ _ (mem_listing.mpr ⟨c, hc, i, hi, rfl, hle, rfl⟩)
      simp only [hnames c hc, decide_eq_true_eq, and_imp] at h
      exact h
  · intro hright
    refine ⟨_, mapToRun_cells hp, listing_nodup m p, ?_, ?_⟩
    · intro oid
      constructor
      · rintro ⟨full, hmem⟩
        obtain ⟨c, hc, i, hi, rfl, hle, -⟩ := mem_listing.mp hmem
        obtain ⟨q, hq, hin⟩ := (hright c hc i hi).1.mp hle
        exact ⟨q, hq, (hnames c hc i q).mpr hin⟩
      · rintro ⟨q, hq, hn⟩
        obtain ⟨c, hc, hin, rfl⟩ := (names_iff hm).mp hn
        have hi := Nat.mod_lt q c.1.width_pos
        have hle := (hright c hc _ hi).1.mpr ⟨q, hq, hin, rfl⟩
        exact ⟨_, mem_listing.mpr ⟨c, hc, _, hi, rfl, hle, rfl⟩⟩
    · intro oid full hmem
      obtain ⟨c, hc, i, hi, rfl, hle, rfl⟩ := mem_listing.mp hmem
      rw [decide_eq_true_eq, (hright c hc i hi).2 hle]
      simp only [hnames c hc, and_imp]

/-- **`map_to`** on every valid map without a run too large for the 32-bit product, for every
    mapped position: the listing is right exactly when the stripe of the position is aligned, or
    the position does not come to lie in a round that the stripe cuts. -/
theorem mapTo_exact (m : ObjectMap) (hm : m.Small) (p : Nat) (hp : ∃ oid, m.Names p oid) :
    m.MapToExact p ↔ m.StripeAligned p := by
  rw [mapToExact_iff_right hm hp]
  have hlt : p < m.limit := by
    by_contra hge
    exact not_names_of_le (not_lt.mp hge) hp
  obtain ⟨c, hc, hin⟩ := cell_of_lt hlt
  obtain ⟨s, hmap, -, hid, hw, hmin, hmax⟩ := mapStripe_cell hm hc hin
  have hsucc : (c.2 + 1) * c.1.size = c.2 * c.1.size + c.1.size := Nat.succ_mul ..
  have haligned : m.StripeAligned p ↔ c.Right p := by
    rw [Cell.right_iff hin]
    have hmin' : s.minPosition = c.minPosition := hmin
    have hmax' : s.maxPosition + 1 = c.minPosition + c.size := by
      unfold Cell.minPosition Cell.size
      omega
    constructor
    · intro h
      have hs := h s hmap
      rw [hw, hmin'] at hs
      rcases hs with hs | ⟨hs, hs'⟩
      · exact Or.inl hs
      · exact Or.inr ⟨hs, by omega⟩
    · intro h t ht
      rw [hmap] at ht
      cases ht
      rw [hw, hmin']
      rcases h with h | ⟨h, h'⟩
      · exact Or.inl h
      · exact Or.inr ⟨h, by omega⟩
  rw [haligned]
  refine ⟨fun h => h c hc, ?_⟩
  intro hright d hd
  -- the other stripes end before the position or start behind it
  by_cases hdin : InTile Cell.minPosition Cell.size d p
  · rw [m.cells_positions.unique hd hc hdin hin]
    exact hright
  · rcases Nat.lt_or_ge p d.minPosition with h | h
    · exact Cell.right_of_before h
    · apply Cell.right_of_past
      unfold InTile at hdin
      omega

theorem mapTo_exact_sample : View.sampleMap.MapToExact 13 := by
  have hsmall : View.sampleMap.Small := by
    unfold Small
    decide
  apply (mapTo_exact View.sampleMap hsmall 13 ⟨"2.0", false, by decide⟩).mpr
  have hstripe : View.sampleMap.mapStripe 13 = .ok (some
      ⟨2, 1, 12, 15, by decide, by decide, by decide, by decide, by decide⟩) := by decide
  intro s hs
  rw [hstripe] at hs
  cases hs
  exact Or.inl (by decide)

/-- In the misaligned map, position 1 is on object 1.1, and object 1.0 is listed as complete in its
    place. -/
theorem mapTo_misalignedMap :
    misalignedMap.Small ∧ misalignedMap.map 1 = .ok (some "1.1", true) ∧
      ¬ misalignedMap.MapToExact 1 := by
  refine ⟨by unfold Small; decide, by decide, ?_⟩
  rintro ⟨l, hrun, -, hlisted, -⟩
  have hfirst : misalignedMap.mapTo 1 0 = .ok (.objects [("0.0", true)] 1) := by decide
  have hsecond : misalignedMap.mapTo 1 1 = .ok (.objects [("1.0", true)] 2) := by decide
  have hdone : misalignedMap.mapTo 1 2 = .ok .done := by decide
  rw [hrun.unique (.step hfirst (.step hsecond (.done hdone)))] at hlisted
  obtain ⟨full, hmem⟩ := (hlisted "1.1").mpr ⟨1, Nat.le_refl _, true, by decide⟩
  simp at hmem

end ObjectMap

end ZLog
