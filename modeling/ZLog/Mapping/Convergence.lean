import ZLog.Mapping.Expansion
import ZLog.Lib.Joins
import Mathlib.Order.WithBot

/-!
# Convergence of view updates

Concurrent clients build the next view from whatever view won the last round: they expand its
mapping, advance its minimum valid position or replace its sequencer configuration.  The first two
are joins: what they make of an object map is determined by the greatest position that was asked
for.

## Main results

- `ObjectMap.Meets.unique`: the start and the greatest positions determine the map.
- `View.joins_update`: every update raises the level that the map meets.
- `View.updates_converge`: updates commute, are idempotent and converge.
-/

namespace ZLog

open ObjectMap (Entry)

/-! ## Updates -/

/-- The changes that clients make to a view. -/
inductive ViewUpdate where
  | expand (position : Nat)
  | advance (position : Nat)
  | sequencer (config : SequencerConfig)

/-- The view that an update leads to; `none` leaves it as it is. -/
def View.update (options : Options) (v : View) : ViewUpdate → Except Fault View
  | .expand position =>
    match v.expandMapping position options with
    | .error f => .error f
    | .ok r => .ok (r.getD v)
  | .advance position => .ok ((v.advanceMinValidPosition position).getD v)
  | .sequencer config => .ok (v.withSequencerConfig config)

def View.updates (options : Options) (v : View) (ops : List ViewUpdate) : Except Fault View :=
  Lib.stepAll (View.update options) v ops

/-- An expansion and a trim replace the object map only. -/
theorem View.update_expand (options : Options) (v : View) (p : Nat) :
    v.update options (.expand p) =
      (v.objectMap.expandMapping p options).map (fun r => ⟨r.getD v.objectMap, v.seqConfig⟩) := by
  simp only [View.update, View.expandMapping]
  cases v.objectMap.expandMapping p options with
  | error f => rfl
  | ok r => cases r <;> rfl

theorem View.update_advance (options : Options) (v : View) (q : Nat) :
    v.update options (.advance q) =
      .ok ⟨(v.objectMap.advanceMinValidPosition q).getD v.objectMap, v.seqConfig⟩ := by
  simp only [View.update, View.advanceMinValidPosition]
  cases v.objectMap.advanceMinValidPosition q <;> rfl

/-- The greatest positions asked for so far: to be mapped, and to be the minimum valid one. -/
abbrev Demand := WithBot Nat × WithBot Nat

def ViewUpdate.demand : ViewUpdate → Demand
  | .expand position => (position, ⊥)
  | .advance position => (⊥, position)
  | .sequencer _ => ⊥

/-- What a sequence of updates asks for. -/
def demand (ops : List ViewUpdate) : Demand := Lib.total ViewUpdate.demand ops

/-! ## Extensions -/

namespace ObjectMap

variable {options : Options} {m m₁ m₂ : ObjectMap} {j k p : Nat} {d : Demand}

/-- A map has one extension by a number of stripes. -/
theorem ExtendedBy.unique (h₁ : m.ExtendedBy options k m₁) (h₂ : m.ExtendedBy options k m₂)
    (hmv : m₁.minValidPosition = m₂.minValidPosition) : m₁ = m₂ := by
  have hnext : m₁.nextStripeId = m₂.nextStripeId := h₁.next.trans h₂.next.symm
  have hlist : m₁.stripes.toList = m₂.stripes.toList := by
    rcases m.nil_or_snoc with hnil | ⟨l, x, hl⟩
    · have hs₁ := h₁.started hnil
      have hs₂ := h₂.started hnil
      by_cases hk : k = 0
      · rw [if_pos hk] at hs₁ hs₂
        rw [hs₁, hs₂]
      · rw [if_neg hk] at hs₁ hs₂
        obtain ⟨s₁, hs₁, h₁⟩ := hs₁
        obtain ⟨s₂, hs₂, h₂⟩ := hs₂
        have heq : s₁ = s₂ := MultiStripe.ext (h₁.baseId.trans h₂.baseId.symm)
          (h₁.width.trans h₂.width.symm) (h₁.slots.trans h₂.slots.symm)
          (h₁.minPosition.trans h₂.minPosition.symm) (h₁.instances.trans h₂.instances.symm)
        rw [hs₁, hs₂, heq]
    · obtain ⟨s₁, hs₁, h₁⟩ := h₁.extended l x hl
      obtain ⟨s₂, hs₂, h₂⟩ := h₂.extended l x hl
      have heq : s₁ = s₂ := MultiStripe.ext (h₁.baseId.trans h₂.baseId.symm)
        (h₁.width.trans h₂.width.symm) (h₁.slots.trans h₂.slots.symm)
        (h₁.minPosition.trans h₂.minPosition.symm) (h₁.instances.trans h₂.instances.symm)
      rw [hs₁, hs₂, heq]
  obtain ⟨next₁, stripes₁, mv₁, hvalid₁⟩ := m₁
  obtain ⟨next₂, stripes₂, mv₂, hvalid₂⟩ := m₂
  dsimp only at hnext hlist hmv
  have hstripes : stripes₁ = stripes₂ := Lib.OrderedMap.ext hlist
  subst hnext hmv hstripes
  rfl

/-- On runs within the 32-bit product a mapped position needs no expansion, and one past the end
    gets the shortest extension that maps it. -/
theorem Small.expandMapping_cases (hm : m.Small) (hfits : options.Fits) (p : Nat) :
    (p < m.limit ∧ m.expandMapping p options = .ok none) ∨
    (m.limit ≤ p ∧ ∃ k m', 0 < k ∧ m.ExtendedBy options k m' ∧
      m'.minValidPosition = m.minValidPosition ∧ p < m'.limit ∧
      m.limit + (k - 1) * m.stepSize options ≤ p ∧
      m.expandMapping p options = .ok (some m')) := by
  have hok := hm.lookupOk p
  by_cases hp : p < m.limit
  · obtain ⟨oid, last, hmap⟩ := (lookupOk_iff_of_lt hp).mp hok
    refine Or.inl ⟨hp, ?_⟩
    unfold ObjectMap.expandMapping
    rw [hmap]
  · obtain ⟨k, m', hk, hext, hmv, hlt, hle, hexpand⟩ := expandMapping_of_le hfits (not_lt.mp hp)
    obtain ⟨oid, last, hmap⟩ :=
      (lookupOk_iff_of_extended hfits (not_lt.mp hp) hk hext hlt hle).mp hok
    refine Or.inr ⟨not_lt.mp hp, k, m', hk, hext, hmv, hlt, hle, ?_⟩
    rw [hexpand, hmap]

/-- The extension that just reaches a position is the one that `expand_mapping` returns. -/
theorem Small.expandMapping_eq (hm : m.Small) (hfits : options.Fits) {m' : ObjectMap} (hk : 0 < k)
    (hext : m.ExtendedBy options k m') (hmv : m'.minValidPosition = m.minValidPosition)
    (hle : m.limit + (k - 1) * m.stepSize options ≤ p) (hlt : p < m'.limit) :
    m.expandMapping p options = .ok (some m') := by
  rcases hm.expandMapping_cases hfits p with ⟨hp, -⟩ |
    ⟨-, k₀, m₀, hk₀, hext₀, hmv₀, hlt₀, hle₀, heq⟩
  · omega
  · rw [hext.limit] at hlt
    rw [hext₀.limit] at hlt₀
    have h₁ : k - 1 < k₀ := Nat.lt_of_mul_lt_mul_right (a := m.stepSize options) (by omega)
    have h₂ : k₀ - 1 < k := Nat.lt_of_mul_lt_mul_right (a := m.stepSize options) (by omega)
    obtain rfl : k₀ = k := by omega
    rw [heq, hext₀.unique hext (hmv₀.trans hmv.symm)]

/-! ## Levels -/

/-- `m'` extends `m` by the fewest stripes that map what was asked for, and its minimum valid
    position is the greatest one asked for, unless `m` is past it. -/
structure Meets (m : ObjectMap) (options : Options) (d : Demand) (m' : ObjectMap) : Prop where
  stripes : ∃ k, m.ExtendedBy options k m' ∧ (∀ p : Nat, d.1 = p → p < m'.limit) ∧
    ∀ j < k, ∃ p : Nat, d.1 = p ∧ m.limit + j * m.stepSize options ≤ p
  minValidPosition : m'.minValidPosition = max m.minValidPosition (d.2.unbotD 0)

theorem Meets.refl (m : ObjectMap) : m.Meets options ⊥ m := by
  refine ⟨⟨0, .refl m, ?_, fun j hj => absurd hj (Nat.not_lt_zero j)⟩, ?_⟩
  · intro p hp
    exact absurd hp.symm WithBot.coe_ne_bot
  · show m.minValidPosition = max m.minValidPosition 0
    rw [Nat.max_zero]

theorem Meets.small (h : m.Meets options d m₁) (hm : m.Small) (hfits : options.Fits) :
    m₁.Small := by
  obtain ⟨k, hext, -⟩ := h.stripes
  exact hext.small hm hfits

/-- **One map** meets a level: a shorter extension would miss the position that the longer one
    needs its last stripe for. -/
theorem Meets.unique (h₁ : m.Meets options d m₁) (h₂ : m.Meets options d m₂) : m₁ = m₂ := by
  obtain ⟨k₁, hext₁, hmap₁, hleast₁⟩ := h₁.stripes
  obtain ⟨k₂, hext₂, hmap₂, hleast₂⟩ := h₂.stripes
  have hk : k₁ = k₂ := by
    rcases Nat.lt_trichotomy k₁ k₂ with hlt | heq | hgt
    · obtain ⟨p, hp, hle⟩ := hleast₂ k₁ hlt
      have := hmap₁ p hp
      rw [hext₁.limit] at this
      omega
    · exact heq
    · obtain ⟨p, hp, hle⟩ := hleast₁ k₂ hgt
      have := hmap₂ p hp
      rw [hext₂.limit] at this
      omega
  rw [hk] at hext₁
  exact hext₁.unique hext₂ (h₁.minValidPosition.trans h₂.minValidPosition.symm)

/-- A greater demand keeps what the lesser one needed. -/
theorem demand_sup {d : WithBot Nat} {q n : Nat} (h : ∃ r : Nat, d = r ∧ n ≤ r) :
    ∃ r : Nat, d ⊔ (q : WithBot Nat) = r ∧ n ≤ r := by
  obtain ⟨r, rfl, hle⟩ := h
  exact ⟨max r q, rfl, hle.trans (Nat.le_max_left r q)⟩

theorem demand_sup_right (d : WithBot Nat) {q n : Nat} (h : n ≤ q) :
    ∃ r : Nat, d ⊔ (q : WithBot Nat) = r ∧ n ≤ r := by
  cases d with
  | bot => exact ⟨q, bot_sup_eq _, h⟩
  | coe r => exact ⟨max r q, rfl, h.trans (Nat.le_max_right r q)⟩

/-- A position below the join of two demands is below one of them. -/
theorem lt_of_demand_sup {d : WithBot Nat} {q n : Nat} (hd : ∀ r : Nat, d = r → r < n)
    (hq : q < n) {p : Nat} (hp : d ⊔ (q : WithBot Nat) = p) : p < n := by
  cases d with
  | bot =>
    rw [bot_sup_eq] at hp
    have heq : q = p := WithBot.coe_injective hp
    rw [← heq]
    exact hq
  | coe r =>
    have hmax : max r q = p := WithBot.coe_injective hp
    rw [← hmax]
    exact Nat.max_lt.mpr ⟨hd r rfl, hq⟩

/-- Expanding a map raises the first level to the position. -/
theorem Meets.expand (h : m.Meets options d m₁) (hm : m.Small) (hfits : options.Fits) (p : Nat) :
    ∃ r, m₁.expandMapping p options = .ok r ∧
      m.Meets options (d ⊔ ((p : WithBot Nat), ⊥)) (r.getD m₁) := by
  obtain ⟨k, hext, hmapped, hleast⟩ := h.stripes
  have hlevel : (d ⊔ ((p : WithBot Nat), ⊥)).2 = d.2 := sup_bot_eq d.2
  rcases (h.small hm hfits).expandMapping_cases hfits p with ⟨hp, hexpand⟩ |
    ⟨hp, k', m', hk', hext', hmv, hlt, hle, hexpand⟩
  · refine ⟨none, hexpand, ⟨k, hext, ?_, fun j hj => demand_sup (hleast j hj)⟩, ?_⟩
    · intro q hq
      exact lt_of_demand_sup hmapped hp hq
    · rw [hlevel]
      exact h.minValidPosition
  · rw [hext.limit] at hp
    rw [hext.limit, hext.stepSize] at hle
    refine ⟨some m', hexpand, ⟨k + k', hext.trans hext', ?_, ?_⟩, ?_⟩
    · intro q hq
      apply lt_of_demand_sup _ hlt hq
      intro r hr
      have hr' := hmapped r hr
      have hlimit := hext'.limit
      show r < m'.limit
      omega
    · intro j hj
      -- every shorter extension ends before `p`
      have hmul := Nat.mul_le_mul_right (m.stepSize options) (show j ≤ k + (k' - 1) by omega)
      rw [Nat.add_mul] at hmul
      have hj' : m.limit + j * m.stepSize options ≤ p := by omega
      exact demand_sup_right d.1 hj'
    · rw [hlevel]
      exact hmv.trans h.minValidPosition

/-- Advancing the minimum valid position raises the second level to it. -/
theorem Meets.advance (h : m.Meets options d m₁) (q : Nat) :
    m.Meets options (d ⊔ (⊥, (q : WithBot Nat))) ((m₁.advanceMinValidPosition q).getD m₁) := by
  have hlevel : (d ⊔ (⊥, (q : WithBot Nat))).1 = d.1 := sup_bot_eq d.1
  have hmax : (d ⊔ (⊥, (q : WithBot Nat))).2.unbotD 0 = max (d.2.unbotD 0) q := by
    show (d.2 ⊔ (q : WithBot Nat)).unbotD 0 = max (d.2.unbotD 0) q
    cases d.2 with
    | bot => simp
    | coe r => rfl
  obtain ⟨k, hext, hmapped, hleast⟩ := h.stripes
  have hmv := h.minValidPosition
  unfold ObjectMap.advanceMinValidPosition
  split
  · next hle =>
    refine ⟨⟨k, hext, ?_, ?_⟩, ?_⟩
    · rw [hlevel]
      exact hmapped
    · rw [hlevel]
      exact hleast
    · show m₁.minValidPosition = _
      rw [hmax]
      omega
  · next hgt =>
    refine ⟨⟨k, ⟨hext.next, hext.started, hext.extended⟩, ?_, ?_⟩, ?_⟩
    · rw [hlevel]
      exact hmapped
    · rw [hlevel]
      exact hleast
    · show q = _
      rw [hmax]
      omega

end ObjectMap

/-! ## Convergence -/

namespace View

variable {options : Options} {v v₁ v₂ : View} {ops ops' : List ViewUpdate}

/-- Every update raises the level that the object map meets. -/
theorem joins_update (hfits : options.Fits) {m : ObjectMap} (hm : m.Small) :
    Lib.Joins (View.update options) ViewUpdate.demand
      (fun d v => m.Meets options d v.objectMap) where
  step := by
    intro d v op h
    cases op with
    | expand p =>
      obtain ⟨r, hexpand, hmeets⟩ := h.expand hm hfits p
      refine ⟨⟨r.getD v.objectMap, v.seqConfig⟩, ?_, hmeets⟩
      rw [View.update_expand, hexpand]
      rfl
    | advance q => exact ⟨_, View.update_advance options v q, h.advance q⟩
    | sequencer c =>
      refine ⟨v.withSequencerConfig c, rfl, ?_⟩
      show m.Meets options (d ⊔ ⊥) v.objectMap
      rw [sup_bot_eq]
      exact h

/-- Updates always succeed, and lead to the level they ask for. -/
theorem updates_meets (hfits : options.Fits) (hv : v.objectMap.Small) (ops : List ViewUpdate) :
    ∃ v', v.updates options ops = .ok v' ∧
      v.objectMap.Meets options (demand ops) v'.objectMap := by
  obtain ⟨v', hrun, hmeets⟩ := (joins_update hfits hv).stepAll (.refl v.objectMap) ops
  rw [bot_sup_eq] at hmeets
  exact ⟨v', hrun, hmeets⟩

/-- The updates decide the object map by what they ask for. -/
theorem updates_objectMap (hfits : options.Fits) (hv : v.objectMap.Small)
    (hdemand : demand ops = demand ops') (h₁ : v.updates options ops = .ok v₁)
    (h₂ : v.updates options ops' = .ok v₂) : v₁.objectMap = v₂.objectMap := by
  obtain ⟨_, hrun₁, hmeets₁⟩ := updates_meets hfits hv ops
  obtain ⟨_, hrun₂, hmeets₂⟩ := updates_meets hfits hv ops'
  rw [h₁] at hrun₁
  cases hrun₁
  rw [h₂] at hrun₂
  cases hrun₂
  rw [hdemand] at hmeets₁
  exact hmeets₁.unique hmeets₂

/-- A position that has been asked for is mapped, and is not expanded for again. -/
theorem updates_expand (hfits : options.Fits) (hv : v.objectMap.Small) {p : Nat}
    (hp : .expand p ∈ ops) (h : v.updates options ops = .ok v₁) :
    v₁.expandMapping p options = .ok none := by
  obtain ⟨_, hrun, hmeets⟩ := updates_meets hfits hv ops
  rw [h] at hrun
  cases hrun
  obtain ⟨k, hext, hmapped, -⟩ := hmeets.stripes
  have htotal : (ViewUpdate.expand p).demand ≤ demand ops := Lib.le_total hp
  have hle : (p : WithBot Nat) ≤ (demand ops).1 := htotal.1
  have hlt : p < v₁.objectMap.limit := by
    cases hd : (demand ops).1 with
    | bot =>
      rw [hd] at hle
      exact absurd (le_bot_iff.mp hle) WithBot.coe_ne_bot
    | coe r =>
      rw [hd] at hle
      exact lt_of_le_of_lt (WithBot.coe_le_coe.mp hle) (hmapped r hd)
  rcases (hmeets.small hv hfits).expandMapping_cases hfits p with ⟨-, hexpand⟩ | ⟨hge, -⟩
  · unfold View.expandMapping
    rw [hexpand]
  · exact absurd hlt (not_lt.mpr hge)

end View

def ViewUpdate.config? : ViewUpdate → Option SequencerConfig
  | .sequencer config => some config
  | _ => none

namespace View

variable {options : Options} {v v₁ v₂ : View} {ops ops' : List ViewUpdate}

/-- The last configuration that was set is the one of the view. -/
theorem updates_seqConfig (h : v.updates options ops = .ok v₁) :
    v₁.seqConfig = ((ops.filterMap ViewUpdate.config?).map some).getLastD v.seqConfig := by
  induction ops generalizing v with
  | nil =>
    cases h
    rfl
  | cons op ops ih =>
    unfold View.updates Lib.stepAll at h
    split at h
    · cases h
    · next u hu =>
      rw [ih h]
      cases op with
      | expand p =>
        rw [View.update_expand] at hu
        cases hr : v.objectMap.expandMapping p options with
        | error f =>
          rw [hr] at hu
          cases hu
        | ok r =>
          rw [hr] at hu
          cases hu
          rfl
      | advance q =>
        rw [View.update_advance] at hu
        cases hu
        rfl
      | sequencer c =>
        cases hu
        show _ = (some c :: (ops.filterMap ViewUpdate.config?).map some).getLastD v.seqConfig
        rw [List.getLastD_cons]
        rfl

/-- Updates that ask for the same and set the same configurations lead to the same view. -/
theorem updates_eq (hfits : options.Fits) (hv : v.objectMap.Small)
    (hdemand : demand ops = demand ops')
    (hconfigs : ops.filterMap ViewUpdate.config? = ops'.filterMap ViewUpdate.config?) :
    v.updates options ops = v.updates options ops' := by
  obtain ⟨v₁, hrun₁, -⟩ := updates_meets hfits hv ops
  obtain ⟨v₂, hrun₂, -⟩ := updates_meets hfits hv ops'
  have hmap : v₁.objectMap = v₂.objectMap := updates_objectMap hfits hv hdemand hrun₁ hrun₂
  have hseq : v₁.seqConfig = v₂.seqConfig := by
    rw [updates_seqConfig hrun₁, updates_seqConfig hrun₂, hconfigs]
  rw [hrun₁, hrun₂]
  obtain ⟨m₁, c₁⟩ := v₁
  obtain ⟨m₂, c₂⟩ := v₂
  cases hmap
  cases hseq
  rfl

/-- Updates of which one at most sets a configuration commute. -/
theorem updates_perm (hfits : options.Fits) (hv : v.objectMap.Small) (hperm : ops.Perm ops')
    {c : SequencerConfig} (hc : ops'.filterMap ViewUpdate.config? = [c]) :
    v.updates options ops = v.updates options ops' := by
  apply updates_eq hfits hv (Lib.total_perm hperm)
  have hp := hperm.filterMap ViewUpdate.config?
  rw [hc] at hp ⊢
  exact List.perm_singleton.mp hp

theorem demand_expand (p p' : Nat) :
    demand [.expand p, .expand p'] = demand [.expand (max p p')] := by
  show ((p : WithBot Nat), (⊥ : WithBot Nat)) ⊔ (((p' : WithBot Nat), ⊥) ⊔ ⊥) =
    (((max p p' : Nat) : WithBot Nat), ⊥) ⊔ ⊥
  rw [sup_bot_eq, sup_bot_eq, Prod.mk_sup_mk, bot_sup_eq]
  rfl

theorem demand_advance (q q' : Nat) :
    demand [.advance q, .advance q'] = demand [.advance (max q q')] := by
  show ((⊥ : WithBot Nat), (q : WithBot Nat)) ⊔ ((⊥, (q' : WithBot Nat)) ⊔ ⊥) =
    (⊥, ((max q q' : Nat) : WithBot Nat)) ⊔ ⊥
  rw [sup_bot_eq, sup_bot_eq, Prod.mk_sup_mk, bot_sup_eq]
  rfl

/-- **Convergence**: on views whose stripes are within the 32-bit product every sequence of updates
    succeeds.  An expansion, a trim and a sequencer configuration lead to one view in any order,
    and expansions and trims are joins.  The object map that a sequence of updates leads to is
    determined by the first map and the greatest positions asked for, and no position is expanded
    for twice. -/
theorem updates_converge {options : Options} (hfits : options.Fits) {v : View}
    (hv : v.objectMap.Small) :
    (∀ ops, ∃ v', v.updates options ops = .ok v') ∧
    (∀ p q c ops, ops.Perm [.expand p, .advance q, .sequencer c] →
      v.updates options ops = v.updates options [.expand p, .advance q, .sequencer c]) ∧
    (∀ p, v.updates options [.expand p, .expand p] = v.updates options [.expand p]) ∧
    (∀ p p', v.updates options [.expand p, .expand p'] = v.updates options [.expand (max p p')] ∧
      v.updates options [.expand p', .expand p] = v.updates options [.expand (max p p')]) ∧
    (∀ q q', v.updates options [.advance q, .advance q'] =
        v.updates options [.advance (max q q')] ∧
      v.updates options [.advance q', .advance q] = v.updates options [.advance (max q q')]) ∧
    (∀ ops ops' v₁ v₂, demand ops = demand ops' → v.updates options ops = .ok v₁ →
      v.updates options ops' = .ok v₂ → v₁.objectMap = v₂.objectMap) ∧
    (∀ ops p v₁, .expand p ∈ ops → v.updates options ops = .ok v₁ →
      v₁.expandMapping p options = .ok none) := by
  have hexpand : ∀ p p', v.updates options [.expand p, .expand p'] =
      v.updates options [.expand (max p p')] :=
    fun p p' => updates_eq hfits hv (demand_expand p p') rfl
  have hadvance : ∀ q q', v.updates options [.advance q, .advance q'] =
      v.updates options [.advance (max q q')] :=
    fun q q' => updates_eq hfits hv (demand_advance q q') rfl
  refine ⟨?_, ?_, ?_, ?_, ?_, ?_, ?_⟩
  · intro ops
    obtain ⟨v', hrun, -⟩ := updates_meets hfits hv ops
    exact ⟨v', hrun⟩
  · intro p q c ops hperm
    exact updates_perm hfits hv hperm rfl
  · intro p
    rw [hexpand p p, Nat.max_self]
  · intro p p'
    refine ⟨hexpand p p', ?_⟩
    rw [hexpand p' p, Nat.max_comm]
  · intro q q'
    refine ⟨hadvance q q', ?_⟩
    rw [hadvance q' q, Nat.max_comm]
  · intro ops ops' v₁ v₂ hdemand h₁ h₂
    exact updates_objectMap hfits hv hdemand h₁ h₂
  · intro ops p v₁ hp h
    exact updates_expand hfits hv hp h

/-- Two clients expand the sample map for 25 and for 30, in either order. -/
theorem updates_converge_sample :
    (⟨sampleMap, none⟩ : View).updates {} [.expand 25, .expand 30] =
      (⟨sampleMap, none⟩ : View).updates {} [.expand 30, .expand 25] := by
  have hsmall : (⟨sampleMap, none⟩ : View).objectMap.Small := by
    unfold ObjectMap.Small
    decide
  have h := (@updates_converge {} ⟨by decide, by decide, by decide⟩ _ hsmall).2.2.2.1
  rw [(h 25 30).1, (h 25 30).2]

end View

end ZLog
