import ZLog.Mapping.Partition

/-!
# Expanding a map

`expand_mapping` adds one stripe after the other to the last run of a map until the position is
mapped.  Every round gives a valid map again, and maps more positions, so the loop ends with the
least extension that reaches the position.  A lookup divides by the 32-bit product of width and
slots, so the loop (and the lookups before and in it) work on the runs whose product does not wrap.

## Main results

- `expandMapping_least`: when `expand_mapping` returns the least extension.
- `objectMap_valid_partition`: the maps that the code builds, and the partition they make.
-/

namespace ZLog

open Lib

namespace ObjectMap

/-! ## Lookups without a bound on the runs -/

/-- What a lookup of a mapped position needs of the run that holds it. -/
theorem names_entry_iff {m : ObjectMap} {p : Nat} {oid : String} :
    m.Names p oid ↔ ∃ x ∈ m.stripes.toList, InTile firstPosition positions x p ∧
      mulUInt32 x.2.width x.2.slots ≠ 0 ∧
      (p - x.2.minPosition) / mulUInt32 x.2.width x.2.slots < x.2.instances ∧
      oid = Stripe.oidAt (x.2.baseId + (p - x.2.minPosition) / mulUInt32 x.2.width x.2.slots)
        (p % x.2.width) := by
  constructor
  · -- a name means the position was found in a run, and the assertions of `map` held
    rintro ⟨last, hmap⟩
    -- past the end nothing is mapped
    have hlt : p < m.limit := by
      by_contra hge
      rw [map_unmapped (by omega)] at hmap
      cases hmap
    obtain ⟨x, hx, hin, hfind⟩ := findStripe_mapped hlt
    refine ⟨x, hx, hin, ?_⟩
    unfold ObjectMap.map at hmap
    rw [hfind] at hmap
    -- `width * slots` wrapped to 0: the lookup divides by zero
    by_cases hzero : mulUInt32 x.2.width x.2.slots = 0
    · rw [if_pos hzero] at hmap
      cases hmap
    · rw [if_neg hzero] at hmap
      have hmaxId := x.2.maxStripeId_succ
      unfold MultiStripe.map at hmap
      dsimp only at hmap
      split at hmap
      · next f hf =>
        cases hmap
      · next oid' hok =>
        cases hmap
        split at hok
        · next hcond =>
          cases hok
          exact ⟨hzero, by omega, rfl⟩
        · cases hok
  · -- the run that has the position is found, and names the object
    rintro ⟨x, hx, hin, hnz, hlt, rfl⟩
    have hbound : p < m.limit := lt_of_lt_of_le hin.2 (m.tiles.1.bounds hx).2
    obtain ⟨y, hy, hyin, hfind⟩ := findStripe_mapped hbound
    have hyx := m.tiles.1.unique hy hx hyin hin
    rw [hyx, if_neg hnz] at hfind
    have hmaxId := x.2.maxStripeId_succ
    have hmax := x.2.maxPosition_succ
    have hlo : x.2.minPosition ≤ p := hin.1
    have hhi : p < x.2.minPosition + x.2.span := hin.2
    unfold Names ObjectMap.map
    rw [hfind]
    dsimp only
    unfold MultiStripe.map
    rw [if_pos ⟨Nat.le_add_right _ _, by omega, hlo, by omega⟩]
    exact ⟨_, rfl⟩

/-- A mapped position without a name is one whose lookup fails. -/
theorem map_error_of_lt {m : ObjectMap} {p : Nat} (hlt : p < m.limit)
    (hno : ¬ ∃ oid, m.Names p oid) : ∃ f, m.map p = .error f := by
  -- below the limit `map` either names an object or fails
  cases hmap : m.map p with
  | error f => exact ⟨f, rfl⟩
  | ok r =>
    obtain ⟨r, last⟩ := r
    cases r with
    | some oid => exact absurd ⟨oid, last, hmap⟩ hno
    | none =>
      exfalso
      obtain ⟨x, -, -, hfind⟩ := findStripe_mapped hlt
      unfold ObjectMap.map at hmap
      rw [hfind] at hmap
      -- a division by zero, or a failing assertion
      by_cases hzero : mulUInt32 x.2.width x.2.slots = 0
      · rw [if_pos hzero] at hmap
        cases hmap
      · rw [if_neg hzero] at hmap
        dsimp only at hmap
        split at hmap
        · cases hmap
        · cases hmap

end ObjectMap

/-! ## Extensions -/

/-- The options are ones that a stripe can be built from. -/
structure Options.Fits (options : Options) : Prop where
  width_pos : 1 ≤ options.stripeWidth
  slots_pos : 1 ≤ options.stripeSlots
  size_lt : options.stripeWidth * options.stripeSlots < 2 ^ 32

/-- The run `s'` is the run `s` with `k` more stripes. -/
structure MultiStripe.ExtendedBy (s : MultiStripe) (k : Nat) (s' : MultiStripe) : Prop where
  baseId : s'.baseId = s.baseId
  width : s'.width = s.width
  slots : s'.slots = s.slots
  minPosition : s'.minPosition = s.minPosition
  instances : s'.instances = s.instances + k

/-- The run consists of `k` stripes of the given options from position 0 on. -/
structure MultiStripe.StartedBy (s : MultiStripe) (options : Options) (k : Nat) : Prop where
  baseId : s.baseId = 0
  width : s.width = options.stripeWidth
  slots : s.slots = options.stripeSlots
  minPosition : s.minPosition = 0
  instances : s.instances = k

/-- Extending twice. -/
theorem MultiStripe.ExtendedBy.trans {s s₁ s₂ : MultiStripe} {j k : Nat} (h : s.ExtendedBy j s₁)
    (h' : s₁.ExtendedBy k s₂) : s.ExtendedBy (j + k) s₂ :=
  ⟨h'.baseId.trans h.baseId, h'.width.trans h.width, h'.slots.trans h.slots,
    h'.minPosition.trans h.minPosition, by rw [h'.instances, h.instances, Nat.add_assoc]⟩

/-- Starting a run, and extending it. -/
theorem MultiStripe.StartedBy.trans {options : Options} {s s' : MultiStripe} {j k : Nat}
    (h : s.StartedBy options j) (h' : s.ExtendedBy k s') : s'.StartedBy options (j + k) :=
  ⟨h'.baseId.trans h.baseId, h'.width.trans h.width, h'.slots.trans h.slots,
    h'.minPosition.trans h.minPosition, by rw [h'.instances, h.instances]⟩

/-- The size of a stripe stays. -/
theorem MultiStripe.ExtendedBy.size {s s' : MultiStripe} {k : Nat} (h : s.ExtendedBy k s') :
    s'.size = s.size := by
  unfold MultiStripe.size
  rw [h.width, h.slots]

/-- The run gets longer by whole stripes. -/
theorem MultiStripe.ExtendedBy.span {s s' : MultiStripe} {k : Nat} (h : s.ExtendedBy k s') :
    s'.span = s.span + k * s.size := by
  unfold MultiStripe.span
  rw [h.size, h.instances, Nat.add_mul]

/-- The size of a stripe is that of the options. -/
theorem MultiStripe.StartedBy.size {options : Options} {s : MultiStripe} {k : Nat}
    (h : s.StartedBy options k) : s.size = options.stripeWidth * options.stripeSlots := by
  unfold MultiStripe.size
  rw [h.width, h.slots]

namespace ObjectMap

/-- The map `m'` is the map `m` with `k` more stripes: the last run is extended, or the first one is
    started; the other runs are the same. -/
structure ExtendedBy (m : ObjectMap) (options : Options) (k : Nat) (m' : ObjectMap) : Prop where
  next : m'.nextStripeId = m.nextStripeId + k
  started : m.stripes.toList = [] → if k = 0 then m'.stripes.toList = [] else
    ∃ s, m'.stripes.toList = [(0, s)] ∧ s.StartedBy options k
  extended : ∀ l x, m.stripes.toList = l ++ [x] →
    ∃ s, m'.stripes.toList = l ++ [(x.1, s)] ∧ x.2.ExtendedBy k s

/-- The number of positions that one more stripe maps. -/
def stepSize (m : ObjectMap) (options : Options) : Nat :=
  match m.stripes.last? with
  | some (_, s) => s.size
  | none => options.stripeWidth * options.stripeSlots

variable {options : Options} {m m₁ m₂ m' : ObjectMap} {j k p : Nat}

/-- A map is empty or has a last run. -/
theorem nil_or_snoc (m : ObjectMap) :
    m.stripes.toList = [] ∨ ∃ l x, m.stripes.toList = l ++ [x] := by
  rcases List.eq_nil_or_concat m.stripes.toList with h | ⟨l, x, h⟩
  · exact Or.inl h
  · exact Or.inr ⟨l, x, by rw [h, List.concat_eq_append]⟩

/-- The last run of a map with runs. -/
theorem last?_snoc {l : List Entry} {x : Entry} (h : m.stripes.toList = l ++ [x]) :
    m.stripes.last? = some x := by
  unfold OrderedMap.last?
  rw [h, List.getLast?_concat]

/-- A map without runs has no last one. -/
theorem last?_nil (h : m.stripes.toList = []) : m.stripes.last? = none := by
  unfold OrderedMap.last?
  rw [h, List.getLast?_nil]

/-- A new stripe is not empty. -/
theorem stepSize_pos (m : ObjectMap) (hfits : options.Fits) : 0 < m.stepSize options := by
  unfold stepSize
  split
  · next s _ => exact s.size_pos
  · exact Nat.mul_pos hfits.width_pos hfits.slots_pos

/-- A map ends with its last run. -/
theorem limit_snoc {l : List Entry} {x : Entry} (h : m.stripes.toList = l ++ [x]) :
    m.limit = x.2.minPosition + x.2.span := by
  unfold limit
  rw [last?_snoc h]
  exact x.2.maxPosition_succ

/-- A map without runs has no positions. -/
theorem limit_nil (h : m.stripes.toList = []) : m.limit = 0 := by
  unfold limit
  rw [last?_nil h]

/-- Every added stripe maps `stepSize` more positions. -/
theorem ExtendedBy.limit (h : m.ExtendedBy options k m') :
    m'.limit = m.limit + k * m.stepSize options := by
  unfold stepSize
  rcases m.nil_or_snoc with hnil | ⟨l, x, hl⟩
  · rw [limit_nil hnil, last?_nil hnil, Nat.zero_add]
    have hs := h.started hnil
    by_cases hk : k = 0
    · rw [if_pos hk] at hs
      rw [limit_nil hs, hk, Nat.zero_mul]
    · rw [if_neg hk] at hs
      obtain ⟨s, hlist, hstart⟩ := hs
      rw [limit_snoc (l := []) hlist, hstart.minPosition, Nat.zero_add, MultiStripe.span,
        hstart.instances, hstart.size]
  · obtain ⟨s, hlist, hext⟩ := h.extended l x hl
    rw [limit_snoc hl, limit_snoc hlist, last?_snoc hl, hext.minPosition, hext.span, Nat.add_assoc]

/-- Later stripes have the size of the first new one. -/
theorem ExtendedBy.stepSize (h : m.ExtendedBy options k m') :
    m'.stepSize options = m.stepSize options := by
  unfold ObjectMap.stepSize
  rcases m.nil_or_snoc with hnil | ⟨l, x, hl⟩
  · rw [last?_nil hnil]
    have hs := h.started hnil
    by_cases hk : k = 0
    · rw [if_pos hk] at hs
      rw [last?_nil hs]
    · rw [if_neg hk] at hs
      obtain ⟨s, hlist, hstart⟩ := hs
      rw [last?_snoc (l := []) hlist]
      exact hstart.size
  · obtain ⟨s, hlist, hext⟩ := h.extended l x hl
    rw [last?_snoc hl, last?_snoc hlist]
    exact hext.size

/-- No stripe added. -/
theorem ExtendedBy.refl (m : ObjectMap) : m.ExtendedBy options 0 m := by
  refine ⟨rfl, ?_, ?_⟩
  · intro hnil
    rw [if_pos rfl]
    exact hnil
  · intro l x hl
    exact ⟨x.2, hl, rfl, rfl, rfl, rfl, rfl⟩

/-- Adding stripes twice. -/
theorem ExtendedBy.trans (h : m.ExtendedBy options j m₁) (h' : m₁.ExtendedBy options k m₂) :
    m.ExtendedBy options (j + k) m₂ := by
  refine ⟨by rw [h'.next, h.next, Nat.add_assoc], ?_, ?_⟩
  · intro hnil
    have hs := h.started hnil
    -- no stripe in the first part: the second part starts the run
    by_cases hj : j = 0
    · rw [if_pos hj] at hs
      rw [hj, Nat.zero_add]
      -- the first part starts the run, the second one extends it
      exact h'.started hs
    · rw [if_neg hj] at hs
      obtain ⟨s, hlist, hstart⟩ := hs
      obtain ⟨s', hlist', hext⟩ := h'.extended [] (0, s) hlist
      rw [if_neg (by omega)]
      exact ⟨s', hlist', hstart.trans hext⟩
  · -- a run that was there is extended twice
    intro l x hl
    obtain ⟨s, hlist, hext⟩ := h.extended l x hl
    obtain ⟨s', hlist', hext'⟩ := h'.extended l (x.1, s) hlist
    exact ⟨s', hlist', hext.trans hext'⟩

/-- **Positions never move**: an extension maps every position to the object it had. -/
theorem ExtendedBy.names (h : m.ExtendedBy options k m') {q : Nat} {oid : String}
    (hq : m.Names q oid) : m'.Names q oid := by
  rw [names_entry_iff] at hq ⊢
  obtain ⟨x, hx, hin, hnz, hlt, hoid⟩ := hq
  rcases m.nil_or_snoc with hnil | ⟨l, y, hl⟩
  · rw [hnil] at hx
    cases hx
  · obtain ⟨s, hlist, hext⟩ := h.extended l y hl
    rw [hl] at hx
    rw [hlist]
    rcases List.mem_append.mp hx with hx | hx
    · exact ⟨x, List.mem_append_left _ hx, hin, hnz, hlt, hoid⟩
    · -- the position is in the last run, which only got longer
      rw [List.mem_singleton.mp hx] at hin hnz hlt hoid
      refine ⟨(y.1, s), List.mem_append_right _ (List.mem_singleton.mpr rfl), ?_, ?_, ?_, ?_⟩
      · have hlo : y.2.minPosition ≤ q := hin.1
        have hhi : q < y.2.minPosition + y.2.span := hin.2
        have hspan := hext.span
        constructor
        · show s.minPosition ≤ q
          rw [hext.minPosition]
          exact hlo
        · show q < s.minPosition + s.span
          rw [hext.minPosition, hspan]
          omega
      · show mulUInt32 s.width s.slots ≠ 0
        rw [hext.width, hext.slots]
        exact hnz
      · show (q - s.minPosition) / mulUInt32 s.width s.slots < s.instances
        rw [hext.minPosition, hext.width, hext.slots, hext.instances]
        omega
      · show oid = Stripe.oidAt (s.baseId + (q - s.minPosition) / mulUInt32 s.width s.slots)
          (q % s.width)
        rw [hext.minPosition, hext.width, hext.slots, hext.baseId]
        exact hoid

/-! ## One round -/

/-- Entries that tile the positions and the ids continue one another. -/
theorem adjacent_of_tiles {l : List Entry} {lo hi a z : Nat} (hkey : ∀ x ∈ l, x.1 = x.2.minPosition)
    (hpos : Tiles firstPosition positions lo l hi) (hid : Tiles firstId ids a l z) :
    adjacent l = true := by
  induction l generalizing lo a with
  | nil => rfl
  | cons x l ih =>
    cases hpos with
    | cons hx hpos' =>
      -- a run and its neighbour: positions and ids go on without a gap
      cases hid with
      | cons hxi hid' =>
        have hrest := ih (fun y hy => hkey y (List.mem_cons_of_mem _ hy)) hpos' hid'
        cases l with
        | nil => rfl
        | cons y l =>
          have hy := hkey y (by simp)
          have hmax := x.2.maxPosition_succ
          have hmaxId := x.2.maxStripeId_succ
          have hx' : x.2.minPosition = lo := hx
          have hxi' : x.2.baseId = a := hxi
          have hypos : y.2.minPosition = lo + x.2.span := by
            cases hpos' with
            | cons hs _ => exact hs
          have hyid : y.2.baseId = a + x.2.instances := by
            cases hid' with
            | cons hs _ => exact hs
          simp only [adjacent, Bool.and_eq_true, decide_eq_true_eq]
          exact ⟨⟨by omega, by omega⟩, hrest⟩

/-- Entries that tile the positions and the ids from 0 on make a valid map. -/
theorem isValid_of_tiles {stripes : StripeMap} {next : Nat} (hi : Nat)
    (hkey : ∀ x ∈ stripes.toList, x.1 = x.2.minPosition)
    (hpos : Tiles firstPosition positions 0 stripes.toList hi)
    (hid : Tiles firstId ids 0 stripes.toList next) : isValid next stripes = true := by
  have hnodup : (stripes.toList.map (fun s => s.2.baseId)).Nodup := by
    apply List.pairwise_map.mpr
    apply hid.pairwise.imp
    intro x y hxy
    have hpos := x.2.instances_pos
    have hle : x.2.baseId + x.2.instances ≤ y.2.baseId := hxy
    omega
  have hall : stripes.toList.all (fun s => s.1 = s.2.minPosition) = true := by
    rw [List.all_eq_true]
    intro x hx
    exact decide_eq_true (hkey x hx)
  unfold isValid
  simp only [Bool.and_eq_true]
  refine ⟨⟨⟨⟨decide_eq_true hnodup, hall⟩, ?_⟩, ?_⟩, adjacent_of_tiles hkey hpos hid⟩
  · -- the ids end at the next one
    cases hl : stripes.last? with
    | none =>
      have hnil : stripes.toList = [] := List.getLast?_eq_none_iff.mp hl
      rw [hnil] at hid
      cases hid
      rfl
    | some last =>
      have hend : last.2.baseId + last.2.instances = next := hid.getLast_end hl
      have hmaxId := last.2.maxStripeId_succ
      exact decide_eq_true (by omega)
  · -- the positions and the ids start at 0
    cases hf : stripes.first? with
    | none => rfl
    | some x =>
      have hmem : x ∈ stripes.toList := List.mem_of_mem_head? hf
      have hhead : stripes.toList.head? = some x := hf
      cases hlist : stripes.toList with
      | nil =>
        rw [hlist] at hmem
        cases hmem
      | cons y l =>
        rw [hlist] at hhead hpos hid
        cases hhead
        cases hpos with
        | cons hs _ =>
          cases hid with
          | cons hs' _ => exact decide_eq_true ⟨(hkey x hmem).trans hs, hs'⟩

/-- The last entry replaced under its key. -/
theorem replace_last {stripes : StripeMap} {l : List Entry} {x : Entry}
    (hl : stripes.toList = l ++ [x]) (s : MultiStripe) :
    ((stripes.erase x.1).emplace x.1 s).toList = l ++ [(x.1, s)] := by
  have hsorted := List.pairwise_append.mp (hl ▸ stripes.sorted)
  have hbefore : ∀ y ∈ l, y.1 < x.1 := fun y hy => hsorted.2.2 y hy x (List.mem_singleton.mpr rfl)
  have herase : (stripes.erase x.1).toList = l := by
    show stripes.toList.filter _ = l
    rw [hl, List.filter_append, List.filter_cons_of_neg (by simp), List.filter_nil,
      List.append_nil, List.filter_eq_self]
    intro y hy
    simpa using ne_of_lt (hbefore y hy)
  show OrderedMap.insertList x.1 s (stripes.erase x.1).toList = _
  rw [herase, OrderedMap.insertList_of_lt hbefore]

/-- **One round** of the loop: it adds one stripe, trips no assertion, and the constructor accepts
    the map it makes. -/
theorem addStripe_extends (m : ObjectMap) (hfits : options.Fits) (mv : Nat) :
    ∃ stripes m', addStripe m.stripes m.nextStripeId options = .ok stripes ∧
      new (m.nextStripeId + 1) stripes mv = .ok m' ∧ m'.stripes = stripes ∧
      m'.nextStripeId = m.nextStripeId + 1 ∧ m'.minValidPosition = mv ∧
      m.ExtendedBy options 1 m' := by
  -- the map has no runs yet: the first stripe is made from the options
  rcases m.nil_or_snoc with hnil | ⟨l, x, hl⟩
  · have hnext : m.nextStripeId = 0 := by
      have hid := m.tiles.2
      rw [hnil] at hid
      exact hid.eq_of_nil.symm
    have hempty : m.stripes = .empty := OrderedMap.ext hnil
    have hpos : 1 ≤ options.stripeWidth * options.stripeSlots :=
      Nat.mul_pos hfits.width_pos hfits.slots_pos
    obtain ⟨s, hs, hb, hw, hsl, hi, hmin, -⟩ := View.firstStripe_ok hpos hfits.size_lt
    -- one run is a valid map
    have hvalid : isValid 1 (.singleton 0 s) = true := by
      apply isValid_of_tiles s.span
      · intro y hy
        rw [List.mem_singleton.mp hy]
        exact hmin.symm
      · exact Tiles.singleton_iff.mpr ⟨hmin, Nat.zero_add _⟩
      · exact Tiles.singleton_iff.mpr ⟨hb, by rw [Nat.zero_add]; exact hi⟩
    refine ⟨.singleton 0 s, ⟨1, .singleton 0 s, mv, hvalid⟩, ?_, ?_, rfl, by rw [hnext], rfl, ?_⟩
    · unfold addStripe
      rw [last?_nil hnil, hnext, hempty]
      dsimp only
      rw [hs]
      rfl
    · rw [hnext]
      exact new_eq_ok.mpr ⟨rfl, rfl, rfl⟩
    · refine ⟨by rw [hnext], ?_, ?_⟩
      · intro _
        rw [if_neg (by omega)]
        exact ⟨s, rfl, hb, hw, hsl, hmin, hi⟩
      · intro l x hl
        rw [hnil] at hl
        exact absurd hl.symm (by simp)
  · -- the last run is extended by one stripe
    obtain ⟨s, hs, hb, hw, hsl, hmin, hi⟩ := x.2.extend_ok
    have hext : x.2.ExtendedBy 1 s := ⟨hb, hw, hsl, hmin, hi⟩
    have hmem : x ∈ m.stripes.toList := by
      rw [hl]
      exact List.mem_append_right _ (List.mem_singleton.mpr rfl)
    have hkey : x.1 = x.2.minPosition := m.key_eq hmem
    -- the id of the new stripe is the one the map expects
    have hnext : s.maxStripeId = m.nextStripeId := by
      have hend : x.2.baseId + x.2.instances = m.nextStripeId :=
        m.tiles.2.getLast_end (by rw [hl, List.getLast?_concat])
      have hmaxId := s.maxStripeId_succ
      omega
    have hlist := replace_last hl s
    -- the new run ends where the tiling of positions and of ids goes on
    have hvalid : isValid (m.nextStripeId + 1) ((m.stripes.erase x.1).emplace x.1 s) = true := by
      have htiles := m.tiles
      rw [hl] at htiles
      obtain ⟨mid, hp₁, hp₂⟩ := Tiles.append_iff.mp htiles.1
      obtain ⟨mid', hi₁, hi₂⟩ := Tiles.append_iff.mp htiles.2
      obtain ⟨hps, -⟩ := Tiles.singleton_iff.mp hp₂
      obtain ⟨his, hie⟩ := Tiles.singleton_iff.mp hi₂
      apply isValid_of_tiles (mid + s.span) <;> rw [hlist]
      · intro y hy
        rcases List.mem_append.mp hy with hy | hy
        · apply m.key_eq
          rw [hl]
          exact List.mem_append_left _ hy
        · rw [List.mem_singleton.mp hy]
          exact hkey.trans hmin.symm
      · exact hp₁.append (Tiles.singleton_iff.mpr ⟨hmin.trans hps, rfl⟩)
      · refine hi₁.append (Tiles.singleton_iff.mpr ⟨hb.trans his, ?_⟩)
        have hie' : mid' + x.2.instances = m.nextStripeId := hie
        show mid' + s.instances = _
        omega
    refine ⟨_, ⟨m.nextStripeId + 1, _, mv, hvalid⟩, ?_, new_eq_ok.mpr ⟨rfl, rfl, rfl⟩, rfl, rfl, rfl,
      rfl, ?_, ?_⟩
    · unfold addStripe
      rw [last?_snoc hl]
      dsimp only
      rw [hs]
      dsimp only
      rw [if_pos ⟨hmin.trans hkey.symm, hnext⟩, hmin, ← hkey]
    · intro hnil
      rw [hnil] at hl
      exact absurd hl.symm (by simp)
    · intro l' x' hl'
      rw [hl] at hl'
      obtain ⟨rfl, hx⟩ := List.append_inj' hl' rfl
      cases hx
      exact ⟨s, hlist, hext⟩

/-! ## The loop -/

/-- **The loop** stops at the first extension that maps the position; its last lookup decides
    whether it returns.  By induction on the rounds: each maps `stepSize` more positions. -/
theorem expandLoop_spec (mv : Nat) {fuel : Nat} (hfits : options.Fits) (hp : m.limit ≤ p)
    (hfuel : p < m.limit + fuel * m.stepSize options) :
    ∃ k m', 0 < k ∧ m.ExtendedBy options k m' ∧ m'.minValidPosition = mv ∧ p < m'.limit ∧
      m.limit + (k - 1) * m.stepSize options ≤ p ∧
      expandLoop options p mv fuel m.nextStripeId m.stripes =
        match m'.map p with
        | .error f => .error f
        | .ok _ => .ok m' := by
  induction fuel generalizing m with
  | zero => omega
  | succ fuel ih =>
    obtain ⟨stripes, m₁, hadd, hnew, hstripes, hnext, hmv, hext⟩ := m.addStripe_extends hfits mv
    have hlimit := hext.limit
    rw [Nat.one_mul] at hlimit
    unfold expandLoop
    rw [hadd]
    dsimp only
    rw [hnew]
    dsimp only
    by_cases hlt : p < m₁.limit
    · refine ⟨1, m₁, Nat.one_pos, hext, hmv, hlt, by omega, ?_⟩
      -- the lookup of a mapped position gives a name or fails
      cases hmap : m₁.map p with
      | error f => rfl
      | ok r =>
        obtain ⟨r, last⟩ := r
        cases r with
        | some oid => rfl
        | none =>
          obtain ⟨f, hf⟩ := map_error_of_lt hlt (by
            rintro ⟨oid, last', hmap'⟩
            rw [hmap] at hmap'
            cases hmap')
          rw [hmap] at hf
          cases hf
    · have hsucc : (fuel + 1) * m.stepSize options =
          fuel * m.stepSize options + m.stepSize options := Nat.succ_mul ..
      obtain ⟨k, m', hk, hext', hmv', hlt', hle, hloop⟩ := ih (m := m₁) (by omega) (by
        rw [hext.stepSize]
        omega)
      refine ⟨1 + k, m', by omega, hext.trans hext', hmv', hlt', ?_, ?_⟩
      · rw [hext.stepSize] at hle
        have hk' : 1 + k - 1 = k - 1 + 1 := by omega
        have hmul : (k - 1 + 1) * m.stepSize options =
            (k - 1) * m.stepSize options + m.stepSize options := Nat.succ_mul ..
        rw [hk']
        omega
      · rw [map_unmapped (by omega), ← hnext, ← hstripes]
        exact hloop

/-! ## The least extension -/

/-- What the lookup of `p` needs of the run it divides in, the one that holds `p` or else the last
    one: the 32-bit stripe size is not 0, and the stripe computed with it is one that the run has
    once `p` is mapped. -/
def LookupOk (m : ObjectMap) (p : Nat) : Prop :=
  ∀ x, m.stripes.floor? p = some x → mulUInt32 x.2.width x.2.slots ≠ 0 ∧
    (p - x.2.minPosition) / mulUInt32 x.2.width x.2.slots <
      max x.2.instances ((p - x.2.minPosition) / x.2.size + 1)

/-- Runs within the 32-bit product always pass. -/
theorem Small.lookupOk (hm : m.Small) (p : Nat) : m.LookupOk p := by
  intro x hx
  have hmem : x ∈ m.stripes.toList := (List.mem_filter.mp (List.mem_of_getLast? hx)).1
  have hsize : mulUInt32 x.2.width x.2.slots = x.2.size := mulUInt32_size (hm x hmem)
  have hpos := x.2.size_pos
  rw [hsize]
  exact ⟨by omega, lt_of_lt_of_le (Nat.lt_succ_self _) (Nat.le_max_right _ _)⟩

/-- `expand_mapping` gives the least extension: nothing when the position is mapped, and else a map
    with the fewest more stripes that maps it, in which every position keeps its object. -/
def ExpandsLeast (m : ObjectMap) (options : Options) (p : Nat) : Prop :=
  (m.expandMapping p options = .ok none ∧ ∃ oid, m.Names p oid) ∨
  ((¬ ∃ oid, m.Names p oid) ∧ ∃ m' k, m.expandMapping p options = .ok (some m') ∧
    (∃ oid, m'.Names p oid) ∧ m'.minValidPosition = m.minValidPosition ∧
    0 < k ∧ m.ExtendedBy options k m' ∧ (∀ q oid, m.Names q oid → m'.Names q oid) ∧
    ∀ j < k, ∀ m'', m.ExtendedBy options j m'' → ¬ ∃ oid, m''.Names p oid)

/-- Past the end no object is named. -/
theorem not_names_of_le (hp : m.limit ≤ p) : ¬ ∃ oid, m.Names p oid := by
  rintro ⟨oid, last, hmap⟩
  rw [map_unmapped hp] at hmap
  cases hmap

/-- The lookup of a position that is mapped already. -/
theorem lookupOk_iff_of_lt (hp : p < m.limit) : m.LookupOk p ↔ ∃ oid, m.Names p oid := by
  -- the run that `floor` finds covers the position
  obtain ⟨x, hfloor, hx, hin⟩ := m.tiles.1.floor_inTile (Nat.zero_le p) hp
  rw [← floor?_eq] at hfloor
  -- the quotient in exact arithmetic is in range, so the 32-bit one decides
  have hquot : (p - x.2.minPosition) / x.2.size + 1 ≤ x.2.instances := by
    have hhi : p < x.2.minPosition + x.2.span := hin.2
    have hlo : x.2.minPosition ≤ p := hin.1
    have hlt : p - x.2.minPosition < x.2.instances * x.2.size := by
      unfold MultiStripe.span at hhi
      omega
    exact (Nat.div_lt_iff_lt_mul x.2.size_pos).mpr hlt
  constructor
  · intro hok
    obtain ⟨hnz, hlt⟩ := hok x hfloor
    rw [Nat.max_eq_left hquot] at hlt
    exact ⟨_, names_entry_iff.mpr ⟨x, hx, hin, hnz, hlt, rfl⟩⟩
  · rintro ⟨oid, hn⟩ y hy
    obtain ⟨z, hz, hzin, hnz, hlt, -⟩ := names_entry_iff.mp hn
    rw [hfloor] at hy
    cases hy
    rw [m.tiles.1.unique hz hx hzin hin] at hnz hlt
    exact ⟨hnz, lt_of_lt_of_le hlt (Nat.le_max_left _ _)⟩

/-- The lookup of a position that an extension has just mapped. -/
theorem lookupOk_iff_of_extended (hfits : options.Fits) (hp : m.limit ≤ p) (hk : 0 < k)
    (hext : m.ExtendedBy options k m') (hlt : p < m'.limit)
    (hle : m.limit + (k - 1) * m.stepSize options ≤ p) :
    m.LookupOk p ↔ ∃ oid, m'.Names p oid := by
  have hlimit := hext.limit
  unfold ObjectMap.stepSize at hle hlimit
  rcases m.nil_or_snoc with hnil | ⟨l, x, hl⟩
  · -- a new run is within the 32-bit product
    have hs := hext.started hnil
    rw [if_neg (by omega)] at hs
    obtain ⟨s, hlist, hstart⟩ := hs
    have hsmall : m'.Small := by
      intro y hy
      rw [hlist] at hy
      rw [List.mem_singleton.mp hy]
      show s.width * s.slots < 2 ^ 32
      rw [hstart.width, hstart.slots]
      exact hfits.size_lt
    refine ⟨fun _ => (lookupOk_iff_of_lt hlt).mp (hsmall.lookupOk p), ?_⟩
    intro _ y hy
    have hmem : y ∈ m.stripes.toList := (List.mem_filter.mp (List.mem_of_getLast? hy)).1
    rw [hnil] at hmem
    cases hmem
  · obtain ⟨s, hlist, hrun⟩ := hext.extended l x hl
    rw [last?_snoc hl] at hle hlimit
    dsimp only at hle hlimit
    have hfloor : m.stripes.floor? p = some x := by
      rw [floor?_eq, m.tiles.1.floor_getLast hp, hl, List.getLast?_concat]
    have hlast := limit_snoc hl
    have hlast' : m'.limit = x.2.minPosition + (x.2.span + k * x.2.size) := by
      rw [limit_snoc hlist, hrun.minPosition, hrun.span]
    have hquot : (p - x.2.minPosition) / x.2.size = x.2.instances + (k - 1) := by
      have hsize := x.2.size_pos
      have hspan : x.2.span = x.2.instances * x.2.size := rfl
      have hmul : (x.2.instances + (k - 1)) * x.2.size =
          x.2.instances * x.2.size + (k - 1) * x.2.size := Nat.add_mul ..
      have hsucc : k * x.2.size = (k - 1) * x.2.size + x.2.size := by
        rw [← Nat.succ_mul]
        congr 1
        omega
      rw [Nat.div_eq_iff hsize]
      omega
    have hmax : max x.2.instances ((p - x.2.minPosition) / x.2.size + 1) = s.instances := by
      rw [hquot, hrun.instances, Nat.max_eq_right (by omega)]
      omega
    have hin : InTile firstPosition positions (x.1, s) p := by
      constructor
      · show s.minPosition ≤ p
        rw [hrun.minPosition]
        omega
      · show p < s.minPosition + s.span
        rw [hrun.minPosition, hrun.span]
        omega
    have hmem : (x.1, s) ∈ m'.stripes.toList := by
      rw [hlist]
      exact List.mem_append_right _ (List.mem_singleton.mpr rfl)
    constructor
    · intro hok
      obtain ⟨hnz, hq⟩ := hok x hfloor
      rw [hmax] at hq
      refine ⟨_, names_entry_iff.mpr ⟨_, hmem, hin, ?_, ?_, rfl⟩⟩
      · show mulUInt32 s.width s.slots ≠ 0
        rw [hrun.width, hrun.slots]
        exact hnz
      · show (p - s.minPosition) / mulUInt32 s.width s.slots < s.instances
        rw [hrun.minPosition, hrun.width, hrun.slots]
        exact hq
    · rintro ⟨oid, hn⟩ y hy
      obtain ⟨z, hz, hzin, hnz, hq, -⟩ := names_entry_iff.mp hn
      rw [hfloor] at hy
      cases hy
      rw [m'.tiles.1.unique hz hmem hzin hin] at hnz hq
      rw [hmax]
      change mulUInt32 s.width s.slots ≠ 0 at hnz
      change (p - s.minPosition) / mulUInt32 s.width s.slots < s.instances at hq
      rw [hrun.width, hrun.slots] at hnz
      rw [hrun.minPosition, hrun.width, hrun.slots] at hq
      exact ⟨hnz, hq⟩

/-- A position that an extension has to reach: the loop ends at the least extension that does, and
    its last lookup decides. -/
theorem expandMapping_of_le (hfits : options.Fits) (hp : m.limit ≤ p) :
    ∃ k m', 0 < k ∧ m.ExtendedBy options k m' ∧ m'.minValidPosition = m.minValidPosition ∧
      p < m'.limit ∧ m.limit + (k - 1) * m.stepSize options ≤ p ∧
      m.expandMapping p options = match m'.map p with
        | .error f => .error f
        | .ok _ => .ok (some m') := by
  have hfuel : p < m.limit + (p + 1) * m.stepSize options := by
    have := Nat.le_mul_of_pos_right (p + 1) (m.stepSize_pos hfits)
    omega
  obtain ⟨k, m', hk, hext, hmv, hlt, hle, hloop⟩ :=
    expandLoop_spec m.minValidPosition hfits hp hfuel
  refine ⟨k, m', hk, hext, hmv, hlt, hle, ?_⟩
  unfold ObjectMap.expandMapping
  rw [map_unmapped hp]
  dsimp only
  rw [hloop]
  cases m'.map p <;> rfl

/-- Without the lookup condition there is no least expansion. -/
theorem lookupOk_of_expandsLeast (hfits : options.Fits) (h : m.ExpandsLeast options p) :
    m.LookupOk p := by
  -- a position below the end must be named already
  by_cases hp : p < m.limit
  · rw [lookupOk_iff_of_lt hp]
    rcases h with ⟨-, hn⟩ | ⟨hno, m', k, he, -⟩
    · exact hn
    · obtain ⟨f, hf⟩ := map_error_of_lt hp hno
      unfold ObjectMap.expandMapping at he
      rw [hf] at he
      cases he
  · -- one past the end is looked up in the expanded map, and fails there
    obtain ⟨k, m', hk, hext, -, hlt, hle, hexpand⟩ := expandMapping_of_le hfits (not_lt.mp hp)
    rw [lookupOk_iff_of_extended hfits (not_lt.mp hp) hk hext hlt hle]
    rcases h with ⟨-, hn⟩ | ⟨-, m'', k', he, -⟩
    · exact absurd hn (not_names_of_le (not_lt.mp hp))
    · by_contra hno
      obtain ⟨f, hf⟩ := map_error_of_lt hlt hno
      rw [hexpand, hf] at he
      cases he

/-- With it there is one. -/
theorem LookupOk.expandsLeast (h : m.LookupOk p) (hfits : options.Fits) :
    m.ExpandsLeast options p := by
  by_cases hp : p < m.limit
  · obtain ⟨oid, last, hmap⟩ := (lookupOk_iff_of_lt hp).mp h
    refine Or.inl ⟨?_, oid, last, hmap⟩
    unfold ObjectMap.expandMapping
    rw [hmap]
  · obtain ⟨k, m', hk, hext, hmv, hlt, hle, hexpand⟩ := expandMapping_of_le hfits (not_lt.mp hp)
    obtain ⟨oid, last, hmap⟩ :=
      (lookupOk_iff_of_extended hfits (not_lt.mp hp) hk hext hlt hle).mp h
    refine Or.inr ⟨not_names_of_le (not_lt.mp hp), m', k, ?_, ⟨oid, last, hmap⟩, hmv, hk, hext,
      fun q oid hq => hext.names hq, ?_⟩
    · rw [hexpand, hmap]
    · -- fewer stripes do not reach the position
      intro j hj m'' hext''
      apply not_names_of_le
      have hmul := Nat.mul_le_mul_right (m.stepSize options) (show j ≤ k - 1 by omega)
      rw [hext''.limit]
      omega

/-- **`expand_mapping`** on every valid map, for every position: it gives the least extension
    exactly when the lookup of the position does not suffer from the 32-bit stripe size. -/
theorem expandMapping_least (m : ObjectMap) {options : Options} (hfits : options.Fits) (p : Nat) :
    m.ExpandsLeast options p ↔ m.LookupOk p :=
  ⟨fun h => lookupOk_of_expandsLeast hfits h, fun h => h.expandsLeast hfits⟩

/-- The sample map is expanded by one stripe for position 25. -/
theorem expandMapping_least_sample : View.sampleMap.ExpandsLeast {} 25 := by
  apply (View.sampleMap.expandMapping_least ⟨by decide, by decide, by decide⟩ 25).mpr
  apply Small.lookupOk
  unfold Small
  decide

/-- The lookups of a stripe of 2 ^ 32 positions divide by 0. -/
theorem expandMapping_largeMap : ¬ largeMap.ExpandsLeast {} 0 := by
  have hfault : largeMap.expandMapping 0 {} = .error .divideByZero := by decide
  rintro (⟨he, -⟩ | ⟨-, m', k, he, -⟩)
  · rw [hfault] at he
    cases he
  · rw [hfault] at he
    cases he

/-! ## The maps the code builds -/

/-- The two ways to make a map from another one. -/
inductive MapOp where
  | expand (position : Nat) (options : Options)
  | advance (position : Nat)

/-- The options of an expansion fit 32 bits. -/
def MapOp.Fits : MapOp → Prop
  | .expand _ options => options.Fits
  | .advance _ => True

/-- The map after an operation; it stays when the operation returns none. -/
def apply (m : ObjectMap) : MapOp → Except Fault ObjectMap
  | .expand position options =>
    match m.expandMapping position options with
    | .error f => .error f
    | .ok r => .ok (r.getD m)
  | .advance position => .ok ((m.advanceMinValidPosition position).getD m)

/-- A sequence of operations, until one fails. -/
def applyAll (m : ObjectMap) : List MapOp → Except Fault ObjectMap
  | [] => .ok m
  | op :: ops =>
    match m.apply op with
    | .error f => .error f
    | .ok m' => m'.applyAll ops

/-- An expansion with fitting options keeps the stripes small. -/
theorem ExtendedBy.small (h : m.ExtendedBy options k m') (hm : m.Small) (hfits : options.Fits) :
    m'.Small := by
  -- the first run has the size of the options
  rcases m.nil_or_snoc with hnil | ⟨l, x, hl⟩
  · have hs := h.started hnil
    by_cases hk : k = 0
    · rw [if_pos hk] at hs
      intro y hy
      rw [hs] at hy
      cases hy
    · rw [if_neg hk] at hs
      obtain ⟨s, hlist, hstart⟩ := hs
      intro y hy
      rw [hlist] at hy
      rw [List.mem_singleton.mp hy]
      show s.width * s.slots < 2 ^ 32
      rw [hstart.width, hstart.slots]
      exact hfits.size_lt
  · -- the last run keeps its size, and the others are as before
    obtain ⟨s, hlist, hrun⟩ := h.extended l x hl
    intro y hy
    rw [hlist] at hy
    rcases List.mem_append.mp hy with hy | hy
    · apply hm
      rw [hl]
      exact List.mem_append_left _ hy
    · rw [List.mem_singleton.mp hy]
      show s.width * s.slots < 2 ^ 32
      rw [hrun.width, hrun.slots]
      apply hm
      rw [hl]
      exact List.mem_append_right _ (List.mem_singleton.mpr rfl)

/-- One operation trips no assertion and keeps the runs within the 32-bit product. -/
theorem Small.apply (hm : m.Small) {op : MapOp} (hop : op.Fits) :
    ∃ m', m.apply op = .ok m' ∧ m'.Small := by
  cases op with
  -- a small map is always expanded, or is wide enough
  | expand p options =>
    have happly : ∀ r, m.expandMapping p options = .ok r →
        m.apply (.expand p options) = .ok (r.getD m) := by
      intro r hr
      unfold ObjectMap.apply
      simp only [hr]
    rcases (hm.lookupOk p).expandsLeast hop with ⟨he, -⟩ | ⟨-, m', k, he, -, -, -, hext, -⟩
    · exact ⟨m, happly none he, hm⟩
    · exact ⟨m', happly (some m') he, hext.small hm hop⟩
  | advance p =>
    refine ⟨_, rfl, ?_⟩
    cases ha : m.advanceMinValidPosition p with
    | none => exact hm
    | some m' =>
      obtain ⟨-, rfl⟩ := advanceMinValidPosition_some ha
      exact hm

/-- A sequence of operations on a small map does not fail. -/
theorem Small.applyAll (hm : m.Small) {ops : List MapOp} (hops : ∀ op ∈ ops, op.Fits) :
    ∃ m', m.applyAll ops = .ok m' ∧ m'.Small := by
  induction ops generalizing m with
  | nil => exact ⟨m, rfl, hm⟩
  | cons op ops ih =>
    obtain ⟨m₁, h₁, hm₁⟩ := hm.apply (hops op (List.mem_cons_self ..))
    obtain ⟨m₂, h₂, hm₂⟩ := ih hm₁ (fun o ho => hops o (List.mem_cons_of_mem _ ho))
    refine ⟨m₂, ?_, hm₂⟩
    unfold ObjectMap.applyAll
    rw [h₁]
    exact h₂

/-- The map of a view without stripes. -/
def emptyMap : ObjectMap := ⟨0, .empty, 0, by decide⟩

/-- The map of a first view is within the 32-bit product. -/
theorem createInitial_small (hfits : options.Fits) :
    ∃ blob v, View.createInitial options = .ok blob ∧ View.decode blob = .ok v ∧
      v.objectMap.Small := by
  obtain ⟨blob, v, hblob, hdecode, -, -, hmap⟩ := @View.decode_createInitial options
    (Nat.mul_pos hfits.width_pos hfits.slots_pos) hfits.size_lt
  refine ⟨blob, v, hblob, hdecode, ?_⟩
  intro x hx
  split at hmap
  · obtain ⟨-, s, hlist, -, hw, hs, -⟩ := hmap
    rw [hlist] at hx
    rw [List.mem_singleton.mp hx]
    show s.width * s.slots < 2 ^ 32
    rw [hw, hs]
    exact hfits.size_lt
  · rw [hmap.2] at hx
    cases hx

/-- **Valid maps partition the log.**  Every map made from a first view or from the empty map by
    expanding and advancing is valid; with options whose width times slots fits the 32-bit product
    no operation fails.  And every valid map without a larger run partitions the positions up to
    its maximum into its stripes, which the lookups by position and by id follow. -/
theorem objectMap_valid_partition :
    (∀ (start m : ObjectMap) (ops : List MapOp), start.applyAll ops = .ok m →
      isValid m.nextStripeId m.stripes = true) ∧
    (∀ options : Options, options.Fits →
      ∃ blob v, View.createInitial options = .ok blob ∧ View.decode blob = .ok v ∧
        ∀ ops : List MapOp, (∀ op ∈ ops, op.Fits) →
          ∃ m, v.objectMap.applyAll ops = .ok m ∧ m.Small) ∧
    (∀ ops : List MapOp, (∀ op ∈ ops, op.Fits) → ∃ m, emptyMap.applyAll ops = .ok m ∧ m.Small) ∧
    (∀ m : ObjectMap, m.Small → m.IsPartition) := by
  refine ⟨fun _ m _ _ => m.valid, ?_, ?_, fun m hm => isPartition hm⟩
  · -- maps that a log starts from
    intro options hfits
    obtain ⟨blob, v, hblob, hdecode, hsmall⟩ := createInitial_small hfits
    exact ⟨blob, v, hblob, hdecode, fun ops hops => hsmall.applyAll hops⟩
  · -- the map without stripes
    intro ops hops
    have hempty : emptyMap.Small := by
      intro x hx
      cases hx
    exact hempty.applyAll hops

/-- On the sample map, and from the empty one. -/
theorem objectMap_valid_partition_sample :
    View.sampleMap.IsPartition ∧
      (∃ m, emptyMap.applyAll [.expand 7 {}, .advance 3] = .ok m ∧ m.Small) := by
  constructor
  · apply objectMap_valid_partition.2.2.2
    unfold Small
    decide
  · apply objectMap_valid_partition.2.2.1
    intro op hop
    rcases List.mem_cons.mp hop with rfl | hop
    · exact ⟨by decide, by decide, by decide⟩
    · rw [List.mem_singleton.mp hop]
      trivial

end ObjectMap

end ZLog
