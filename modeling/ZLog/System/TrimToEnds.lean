import ZLog.System.Records
import ZLog.Mapping.Expansion
import ZLog.Client.Alone
import ZLog.Lib.Loop

/-!
# trimTo ends

A client that is alone on the log gets through `TrimToOp::run` after finitely many rounds of its
loops, with two exceptions.  For the largest position `position_ + 1` is 0, the minimum valid
position never passes it, and the outer loop goes round for ever.  And where an object was sealed
for a view that was then never proposed, a repeated trim waits for that view.

## Main results

- `trimTo_ends`
-/

namespace ZLog

/-! ## The state of the client -/

/-- The stored log, the view that the client holds, and stripes whose size fits 32 bits. -/
structure AloneOk (u : Uuid) (name : String) (s : Alone) : Prop where
  log : LogOk u name s.backend
  held : Held u s.backend s.view
  small : ∀ v ∈ viewsOf u s.backend, v.objectMap.Small

/-- The client holds the latest view. -/
def Current (u : Uuid) (s : Alone) : Prop := s.view.epoch = latestEpoch u s.backend

/-- No object is sealed for a view that does not exist. -/
def Calm (u : Uuid) (b : Store) : Prop := ∀ t i, objectEpoch u b t i ≤ latestEpoch u b

variable {u : Uuid} {name : String} {s s' : Alone} {lb : LogBackend} {options : Options} {p : Nat}

/-- The client learned of the latest view. -/
structure Refreshed (u : Uuid) (name : String) (s s' : Alone) : Prop where
  backend : s'.backend = s.backend
  ok : AloneOk u name s'
  current : Current u s'

/-- The client got a new view stored; an object that was sealed ahead no longer is. -/
structure Proposed (u : Uuid) (name : String) (m : ObjectMap) (s' : Alone) : Prop where
  ok : AloneOk u name s'
  current : Current u s'
  objectMap : s'.view.objectMap = m
  calm : Calm u s'.backend

theorem AloneOk.update (h : AloneOk u name s) (hlb : HandleOk u lb) :
    ∃ s', s.updateCurrentView lb = .ok s' ∧ Refreshed u name s s' := by
  obtain ⟨blob, v, hread, hdec, hv⟩ := h.log.readLatest
  unfold Alone.updateCurrentView
  rw [hlb.1, hread]
  dsimp only [List.getLast?_singleton]
  rw [hdec]
  dsimp only
  have hle : s.view.epoch ≤ latestEpoch u s.backend := h.held.epoch_le
  rw [if_neg (Nat.not_lt_of_le hle)]
  by_cases hcur : latestEpoch u s.backend = s.view.epoch
  · rw [if_pos hcur]
    exact ⟨s, rfl, rfl, h, hcur.symm⟩
  · rw [if_neg hcur]
    exact ⟨_, rfl, rfl, ⟨h.log, hv, h.small⟩, rfl⟩

/-- A proposal is refused exactly when it is not built on the latest view. -/
theorem AloneOk.propose (h : AloneOk u name s) {v' : View}
    (hn : NextView s.view.epoch s.view.view v')
    (hsmall : v'.objectMap.Small) :
    (¬ Current u s ∧
      s.backend.proposeView u.hoid (s.view.epoch + 1) v'.encode = (.error .espipe, s.backend)) ∨
    (Current u s ∧ ∃ b, s.backend.proposeView u.hoid (s.view.epoch + 1) v'.encode = (.ok (), b) ∧
      AloneOk u name { s with backend := b } ∧ viewsOf u b = viewsOf u s.backend ++ [v'.stored] ∧
      ∀ t i, objectEpoch u b t i = objectEpoch u s.backend t i) := by
  have hkept := kept_proposeView h.log h.held hn
  -- the epoch of the proposal is right only on the latest view
  rcases h.log.proposeView h.held hn with ⟨hlt, hp⟩ | ⟨heq, b, hp, hviews, -, hother, -⟩
  · exact .inl ⟨fun hcur => Nat.ne_of_lt hlt hcur, hp⟩
  · refine .inr ⟨heq, b, hp, ?_, hviews, fun t i => ?_⟩
    · rw [hp] at hkept
      refine ⟨hkept.ok, h.held.mono hkept.grows, fun v hv => ?_⟩
      dsimp only at hv
      rw [hviews, List.mem_append, List.mem_singleton] at hv
      rcases hv with hv | rfl
      · exact h.small v hv
      · exact hsmall
    · -- the head object is no data object
      unfold objectEpoch RAMBackend.epochAt RAMBackend.logAt
      rw [hother _ (dataOid_ne_hoid u t i)]

/-- After an accepted proposal the client holds the view it proposed. -/
theorem AloneOk.update_proposed (h : AloneOk u name s) (hlb : HandleOk u lb) {v' : View} {b : Store}
    (hok : AloneOk u name { s with backend := b })
    (hviews : viewsOf u b = viewsOf u s.backend ++ [v'.stored])
    (hepoch : ∀ t i, objectEpoch u b t i = objectEpoch u s.backend t i) :
    ∃ s', Alone.updateCurrentView lb { s with backend := b } = .ok s' ∧
      Proposed u name v'.objectMap s' := by
  obtain ⟨s', hs', hback, hok', hcur⟩ := hok.update hlb
  dsimp only at hback
  -- the new view is one past the latest one
  have hlatest : latestEpoch u s'.backend = latestEpoch u s.backend + 1 := by
    unfold latestEpoch
    rw [hback, hviews, List.length_append, List.length_singleton]
  refine ⟨s', hs', hok', hcur, ?_, fun t i => ?_⟩
  · have hheld := hok'.held
    unfold Held at hheld
    rw [hcur, hlatest, hback, hviews] at hheld
    have hview := hheld.unique (viewAt_append_last _ _)
    unfold VersionedView.objectMap
    rw [hview]
    rfl
  · -- no object has an epoch past the latest one before, which is now old
    rw [hlatest, hback, hepoch]
    unfold objectEpoch RAMBackend.epochAt
    cases hobj : s.backend.logAt (dataOid u t i) with
    | none => exact Nat.zero_le _
    | some o => exact (h.log.object t i o hobj).epoch_le

/-- `advance_min_valid_position` either moves the position or learns of a newer view. -/
theorem AloneOk.advance (h : AloneOk u name s) (hlb : HandleOk u lb)
    (hp : s.view.objectMap.minValidPosition < p) :
    ∃ s', s.advanceMinValidPosition lb p = .ok (.ok (), s') ∧
      ((¬ Current u s ∧ Refreshed u name s s') ∨
        (Current u s ∧ Proposed u name { s.view.objectMap with minValidPosition := p } s')) := by
  have hadv : s.view.view.advanceMinValidPosition p =
      some ⟨{ s.view.objectMap with minValidPosition := p }, s.view.view.seqConfig⟩ := by
    unfold VersionedView.objectMap at hp
    unfold View.advanceMinValidPosition ObjectMap.advanceMinValidPosition
    rw [if_neg (Nat.not_le_of_lt hp)]
    rfl
  have hsmall : ({ s.view.objectMap with minValidPosition := p } : ObjectMap).Small :=
    h.small _ h.held.mem
  unfold Alone.advanceMinValidPosition
  dsimp only
  rw [hadv, hlb.1]
  dsimp only
  -- a refused proposal leads to the latest view, an accepted one to its own
  rcases h.propose (.advance p hadv) hsmall with ⟨hcur, hprop⟩ |
    ⟨hcur, b, hprop, hok, hviews, hepoch⟩
  · obtain ⟨s', hs', href⟩ := h.update hlb
    rw [hprop]
    dsimp only
    rw [hs']
    exact ⟨s', rfl, .inl ⟨hcur, href⟩⟩
  · obtain ⟨s', hs', hnew⟩ := h.update_proposed hlb hok hviews hepoch
    rw [hprop]
    dsimp only
    rw [hs']
    exact ⟨s', rfl, .inr ⟨hcur, hnew⟩⟩

/-! ## Expanding the view -/

/-- The view maps the position. -/
def Maps (v : VersionedView) (p : Nat) : Prop := ∃ oid, v.objectMap.Names p oid

theorem AloneOk.smallView (h : AloneOk u name s) : s.view.objectMap.Small := h.small _ h.held.mem

/-- Nothing to expand. -/
theorem AloneOk.expand_mapped (h : AloneOk u name s) (hfits : options.Fits) (hp : Maps s.view p)
    (n : Nat) : s.tryExpandView options lb p (n + 1) = .ok (.ok (), s) := by
  rcases (h.smallView.lookupOk p).expandsLeast hfits with ⟨he, -⟩ | ⟨hno, -⟩
  · have hnone : s.view.view.expandMapping p options = .ok none := by
      unfold VersionedView.objectMap at he
      unfold View.expandMapping
      rw [he]
    unfold Alone.tryExpandView
    dsimp only
    rw [hnone]
  · exact absurd hp hno

/-- The new view of an expansion. -/
theorem AloneOk.expansion (h : AloneOk u name s) (hfits : options.Fits) (hp : ¬ Maps s.view p) :
    ∃ v' : View, s.view.view.expandMapping p options = .ok (some v') ∧ v'.objectMap.Small ∧
      (∃ oid, v'.objectMap.Names p oid) ∧
      v'.objectMap.minValidPosition = s.view.objectMap.minValidPosition := by
  rcases (h.smallView.lookupOk p).expandsLeast hfits with
    ⟨-, hyes⟩ | ⟨-, m', k, he, hnames, hmv, -, hext, -⟩
  · exact absurd hyes hp
  · refine ⟨⟨m', s.view.view.seqConfig⟩, ?_, hext.small h.smallView hfits, hnames, hmv⟩
    unfold VersionedView.objectMap at he
    unfold View.expandMapping
    rw [he]

/-- On the latest view, the expansion is accepted. -/
theorem AloneOk.expand_current (h : AloneOk u name s) (hlb : HandleOk u lb) (hfits : options.Fits)
    (hcur : Current u s) (hp : ¬ Maps s.view p) (n : Nat) :
    ∃ m' s', s.tryExpandView options lb p (n + 1) = .ok (.ok (), s') ∧ Proposed u name m' s' ∧
      Maps s'.view p ∧
      s'.view.objectMap.minValidPosition = s.view.objectMap.minValidPosition := by
  obtain ⟨v', hexp, hsmall, hnames, hmv⟩ := h.expansion hfits hp
  unfold Alone.tryExpandView
  dsimp only
  rw [hexp, hlb.1]
  dsimp only
  rcases h.propose (.expand p options hexp) hsmall with ⟨hno, -⟩ |
    ⟨-, b, hprop, hok, hviews, hepoch⟩
  · exact absurd hcur hno
  · obtain ⟨s', hs', hnew⟩ := h.update_proposed hlb hok hviews hepoch
    rw [hprop]
    dsimp only
    rw [hs']
    refine ⟨v'.objectMap, s', rfl, hnew, ?_, ?_⟩
    · unfold Maps
      rw [hnew.objectMap]
      exact hnames
    · rw [hnew.objectMap, hmv]

/-- On an older view it is refused, and the next attempt is made on the latest one. -/
theorem AloneOk.expand_stale (h : AloneOk u name s) (hlb : HandleOk u lb) (hfits : options.Fits)
    (hcur : ¬ Current u s) (hp : ¬ Maps s.view p) (n : Nat) :
    ∃ s₁, Refreshed u name s s₁ ∧
      s.tryExpandView options lb p (n + 1) = s₁.tryExpandView options lb p n := by
  obtain ⟨v', hexp, hsmall, -, -⟩ := h.expansion hfits hp
  obtain ⟨s₁, hs₁, href⟩ := h.update hlb
  refine ⟨s₁, href, ?_⟩
  -- one attempt of `try_expand_view`: it is refused and the view is refreshed
  conv_lhs => unfold Alone.tryExpandView
  dsimp only
  rw [hexp, hlb.1]
  dsimp only
  rcases h.propose (.expand p options hexp) hsmall with ⟨-, hprop⟩ | ⟨hyes, -⟩
  · rw [hprop]
    dsimp only
    rw [hs₁]
  · exact absurd hyes hcur

/-! ## The objects of a trim -/

/-- The object holds a position up to `p` in the view. -/
def Covers (v : VersionedView) (p t i : Nat) : Prop :=
  ∃ q ≤ p, v.objectMap.Names q (Stripe.oidAt t i)

/-- The stripes of a small history are all of one size. -/
theorem AloneOk.layout (h : AloneOk u name s) (hfits : options.Fits) :
    ∃ L : Layout, L.size < 2 ^ 32 ∧
      ∀ v ∈ viewsOf u s.backend, v.objectMap.HasLayout L v.objectMap.nextStripeId := by
  obtain ⟨L, hL⟩ := h.log.history.layout
  -- the stripes of one view bound the size for all
  by_cases hany : ∃ v ∈ viewsOf u s.backend, 0 < v.objectMap.nextStripeId
  · obtain ⟨v, hv, hpos⟩ := hany
    obtain ⟨r, hl, -, hw, hs, -, -⟩ := (hL v hv).run hpos
    have hlt := h.small v hv (0, r) (by rw [hl]; exact List.mem_singleton_self _)
    dsimp only at hlt
    rw [hw, hs] at hlt
    exact ⟨L, hlt, hL⟩
  · -- without any stripe the layout is arbitrary
    refine ⟨⟨options.stripeWidth, options.stripeSlots, hfits.width_pos, hfits.slots_pos,
      Nat.le_of_lt hfits.size_lt⟩, hfits.size_lt, fun v hv => ?_⟩
    have hzero : v.objectMap.nextStripeId = 0 := by
      by_contra hne
      exact hany ⟨v, hv, Nat.pos_of_ne_zero hne⟩
    have hv' := hL v hv
    rw [hzero] at hv' ⊢
    exact hv'.of_zero _

section Walk

variable {L : Layout} {m : ObjectMap} {n k t i : Nat}

theorem names_iff_layout (h : m.HasLayout L n) (hlt : L.size < 2 ^ 32) {q : Nat} {oid : String} :
    m.Names q oid ↔ q < n * L.size ∧ oid = L.oid q := by
  constructor
  · rintro ⟨last, hq⟩
    obtain ⟨hin, -, hoid, -⟩ := h.map_some hq
    exact ⟨hin, hoid⟩
  · rintro ⟨hin, rfl⟩
    rcases h.map_cases q with ⟨hout, -⟩ | ⟨-, hbig, -⟩ | ⟨-, -, hmap⟩
    · omega
    · omega
    · exact ⟨_, hmap⟩

/-- The loop ends after the last stripe. -/
theorem mapTo_done (h : m.HasLayout L n) {oid : String} (hp : m.Names p oid) (hk : n ≤ k) :
    m.mapTo p k = .ok .done := by
  obtain ⟨last, hmap⟩ := hp
  have hnum : m.numStripes ≤ k := h.next.trans_le hk
  unfold ObjectMap.mapTo
  rw [hmap]
  dsimp only
  rw [if_pos hnum]

/-- A position that no stripe holds is reported as such. -/
theorem mapTo_unmapped (h : m.Small) (hp : ¬ ∃ oid, m.Names p oid) :
    m.mapTo p k = .ok .unmapped := by
  have hmap := (ObjectMap.isPartition h).unmapped p hp
  unfold ObjectMap.mapTo
  rw [hmap]

/-- A visited object holds a position up to `p`, the one in the first row of the stripe. -/
theorem first_row_le {stripe : Stripe} (hid : stripe.stripeId = k) (hw : stripe.width = L.width)
    (hlo : stripe.minPosition = k * L.size) (hhi : stripe.maxPosition = (k + 1) * L.size - 1)
    {full : Bool} (hmem : (Stripe.oidAt k i, full) ∈ ObjectMap.mapToObjects stripe p) :
    k * L.size + i ≤ p := by
  unfold ObjectMap.mapToObjects at hmem
  -- the object is listed when the stripe ends up to `p`, or when its row starts up to `p`
  obtain ⟨j, -, hj⟩ := List.mem_filterMap.mp hmem
  have hle := L.width_le_size
  have hpos := L.width_pos
  rw [Nat.add_mul, Nat.one_mul] at hhi
  rw [hid] at hj
  split at hj
  · obtain ⟨-, hji⟩ := oidAt_injective (Prod.mk.inj (Option.some.inj hj)).1
    omega
  · split at hj
    · obtain ⟨-, hji⟩ := oidAt_injective (Prod.mk.inj (Option.some.inj hj)).1
      omega
    · cases hj

/-- The objects of a stripe that a trim visits are those that hold positions up to `p`. -/
theorem mapTo_objects (h : m.HasLayout L n) (hlt : L.size < 2 ^ 32) {oid : String}
    (hp : m.Names p oid) (hk : k < n) :
    ∃ objects, m.mapTo p k = .ok (.objects objects (k + 1)) ∧
      (∀ x ∈ objects, ∃ stripe i, m.stripeById k = .ok stripe ∧ stripe.minPosition ≤ p ∧
        x ∈ ObjectMap.mapToObjects stripe p ∧ x.1 = Stripe.oidAt k i ∧ i < L.width ∧
        ∃ q ≤ p, m.Names q (Stripe.oidAt k i)) ∧
      ∀ i, (∃ q ≤ p, m.Names q (Stripe.oidAt k i)) → ∃ full, (Stripe.oidAt k i, full) ∈ objects := by
  obtain ⟨last, hmap⟩ := id hp
  have hin := ((names_iff_layout h hlt).mp hp).1
  obtain ⟨stripe, hstripe, hid, hw, hlo, hhi⟩ := h.stripeById hk
  have hnum : ¬ m.numStripes ≤ k := by
    show ¬ m.nextStripeId ≤ k
    rw [h.next]
    omega
  -- `map_to` looks up the position, checks the stripe number, and then the stripe
  unfold ObjectMap.mapTo
  rw [hmap]
  dsimp only
  rw [if_neg hnum, hstripe]
  dsimp only
  by_cases hpast : p < stripe.minPosition
  · rw [if_pos hpast]
    refine ⟨[], rfl, fun x hx => ?_, fun i hi => ?_⟩
    · cases hx
    · -- the stripe starts behind `p`
      exfalso
      obtain ⟨q, hq, hname⟩ := hi
      obtain ⟨-, hoid⟩ := (names_iff_layout h hlt).mp hname
      obtain ⟨hdiv, -⟩ := oidAt_injective hoid
      have := (L.div_size_eq_iff.mp hdiv.symm).1
      omega
  · rw [if_neg hpast]
    refine ⟨_, rfl, fun x hx => ?_, fun i hi => ?_⟩
    · obtain ⟨oid, full⟩ := x
      obtain ⟨i, hi, hoid, -⟩ := ObjectMap.mem_mapToObjects hid hw hlo hhi hx
      refine ⟨stripe, i, rfl, Nat.le_of_not_lt hpast, hx, hoid, hi, k * L.size + i, ?_, ?_⟩
      · have hrow : (Stripe.oidAt k i, full) ∈ ObjectMap.mapToObjects stripe p := by
          rw [← hoid]
          exact hx
        exact first_row_le hid hw hlo hhi hrow
      · have hsize := L.width_le_size
        have hlast : (k + 1) * L.size ≤ n * L.size := Nat.mul_le_mul_right _ hk
        -- the first position of the object in this stripe
        have hdiv : (k * L.size + i) / L.size = k :=
          L.div_size_eq_iff.mpr ⟨Nat.le_add_right _ _, by rw [Nat.add_mul]; omega⟩
        refine (names_iff_layout h hlt).mpr ⟨by rw [Nat.add_mul] at hlast; omega, ?_⟩
        unfold Layout.oid
        rw [hdiv, L.mod_width_add, Nat.mod_eq_of_lt hi]
    · -- the other way: a position up to `p` puts its object on the list
      obtain ⟨q, hq, hname⟩ := hi
      obtain ⟨-, hoid⟩ := (names_iff_layout h hlt).mp hname
      obtain ⟨hdiv, hmod⟩ := oidAt_injective hoid
      obtain ⟨full, hfull⟩ := ObjectMap.mapToObjects_complete hid hw hlo hdiv.symm hq
      rw [← hmod] at hfull
      exact ⟨full, hfull⟩

end Walk

/-! ## The calls of the walk -/

/-- The number of objects of the first `n` stripes of `width` objects that do not exist. -/
def missing (u : Uuid) (b : Store) (n width : Nat) : Nat :=
  ((Finset.range n ×ˢ Finset.range width).filter fun x =>
    (objectAt u b x.1 x.2).isNone = true).card

/-- What the calls of a walk change: objects are created, with the epoch of the client's view. -/
structure Walked (u : Uuid) (name : String) (s s' : Alone) : Prop where
  ok : AloneOk u name s'
  view : s'.view = s.view
  views : viewsOf u s'.backend = viewsOf u s.backend
  grows : ∀ t i, objectEpoch u s.backend t i ≤ objectEpoch u s'.backend t i
  bound : ∀ t i, objectEpoch u s'.backend t i ≤ max (objectEpoch u s.backend t i) s.view.epoch
  kept : ∀ t i, objectAt u s.backend t i ≠ none → objectAt u s'.backend t i ≠ none

variable {s₁ s₂ s₃ : Alone} {k t i n : Nat}

/-- Nothing has changed. -/
theorem Walked.refl (h : AloneOk u name s) : Walked u name s s :=
  ⟨h, rfl, rfl, fun _ _ => Nat.le_refl _, fun _ _ => Nat.le_max_left _ _, fun _ _ h => h⟩

theorem Walked.trans (h : Walked u name s₁ s₂) (h' : Walked u name s₂ s₃) :
    Walked u name s₁ s₃ where
  ok := h'.ok
  view := h'.view.trans h.view
  views := h'.views.trans h.views
  grows t i := Nat.le_trans (h.grows t i) (h'.grows t i)
  bound t i := by
    have h₁ := h.bound t i
    have h₂ := h'.bound t i
    rw [h.view] at h₂
    omega
  kept t i hne := h'.kept t i (h.kept t i hne)

theorem Walked.latest (h : Walked u name s s') :
    latestEpoch u s'.backend = latestEpoch u s.backend :=
  congrArg List.length h.views

theorem Walked.missing_le (h : Walked u name s s') (n width : Nat) :
    missing u s'.backend n width ≤ missing u s.backend n width := by
  apply Finset.card_le_card
  intro x hx
  rw [Finset.mem_filter, Option.isNone_iff_eq_none] at hx ⊢
  refine ⟨hx.1, ?_⟩
  by_contra hne
  exact h.kept _ _ hne hx.2

/-- Replacing a data object by one of the epoch `e` is such a change. -/
theorem AloneOk.walked_setLog (h : AloneOk u name s) {o : LogObject}
    (hk : Kept u name s.backend (s.backend.setLog (dataOid u t i) o))
    (hge : objectEpoch u s.backend t i ≤ o.epoch)
    (hle : o.epoch ≤ max (objectEpoch u s.backend t i) s.view.epoch) :
    Walked u name s { s with backend := s.backend.setLog (dataOid u t i) o } := by
  have hviews := viewsOf_setLog (u := u) s.backend t i o
  refine ⟨⟨hk.ok, h.held.mono hk.grows, ?_⟩, rfl, hviews, fun t' i' => ?_, fun t' i' => ?_,
    fun t' i' hne => ?_⟩
  · dsimp only
    rw [hviews]
    exact h.small
  · dsimp only
    rw [objectEpoch_setLog]
    split
    · -- the object of the call, and every other one
      next heq =>
      obtain ⟨rfl, rfl⟩ := heq
      exact hge
    · exact Nat.le_refl _
  · dsimp only
    rw [objectEpoch_setLog]
    split
    · next heq =>
      obtain ⟨rfl, rfl⟩ := heq
      exact hle
    · exact Nat.le_max_left _ _
  · dsimp only
    rw [objectAt_setLog]
    split
    · exact Option.some_ne_none _
    · exact hne

/-- One trim of the walk: it is done, the object is sealed ahead of the view, or it does not exist. -/
theorem AloneOk.trim (h : AloneOk u name s) {stripe : Stripe} {full : Bool}
    (hs : s.view.objectMap.stripeById t = .ok stripe) (hmin : stripe.minPosition ≤ p)
    (hmem : (Stripe.oidAt t i, full) ∈ ObjectMap.mapToObjects stripe p) :
    -- the three answers of `Trim`: done, sealed ahead, and missing
    (∃ b, s.backend.trim (dataOid u t i) s.view.epoch p true full = (.ok (), b) ∧
      Walked u name s { s with backend := b } ∧
      objectEpoch u s.backend t i ≤ s.view.epoch) ∨
    (s.backend.trim (dataOid u t i) s.view.epoch p true full = (.error .espipe, s.backend) ∧
      s.view.epoch < objectEpoch u s.backend t i) ∨
    (s.backend.trim (dataOid u t i) s.view.epoch p true full = (.error .enoent, s.backend) ∧
      objectAt u s.backend t i = none) := by
  have hkept := kept_trim_range h.log h.held hs hmin hmem
  unfold RAMBackend.trim at hkept ⊢
  rw [Bool.not_true, Bool.and_false] at hkept ⊢
  rcases h.log.checkIo (s := t) (i := i) h.held.1 with ⟨o, hio, ho⟩ | ⟨hio, hlt⟩ | ⟨hio, hnone⟩
  · obtain ⟨-, -, -, hle⟩ := RAMBackend.checkIo_eq_ok.mp hio
    have hepoch := objectEpoch_of_objectAt ho
    rw [hio] at hkept ⊢
    -- a trim keeps the epoch of its object
    refine .inl ⟨_, rfl, h.walked_setLog hkept ?_ ?_, ?_⟩
    · rw [LogObject.epoch_trim, hepoch]
    · rw [LogObject.epoch_trim, hepoch]
      exact Nat.le_max_left _ _
    · rw [hepoch]
      exact hle
  · rw [hio]
    exact .inr (.inl ⟨rfl, hlt⟩)
  · rw [hio]
    exact .inr (.inr ⟨rfl, hnone⟩)

/-- Sealing an object that does not exist creates it. -/
theorem AloneOk.seal (h : AloneOk u name s) (hnone : objectAt u s.backend t i = none) :
    ∃ b, s.backend.seal (dataOid u t i) s.view.epoch = (.ok (), b) ∧
      Walked u name s { s with backend := b } ∧ objectAt u b t i ≠ none := by
  have hpos : 0 < s.view.epoch := h.held.1
  have hkept := kept_seal (s := t) (i := i) h.log hpos (Nat.le_succ_of_le h.held.epoch_le)
  -- a name of a data object holds a log object or nothing
  have hlookup : s.backend.objects.lookup (dataOid u t i) = none := by
    rcases h.log.kinds t i with hl | ⟨o, hl⟩
    · exact hl
    · unfold objectAt at hnone
      rw [RAMBackend.logAt_eq_some.mpr hl] at hnone
      cases hnone
  have hepoch : objectEpoch u s.backend t i = 0 := by
    unfold objectEpoch RAMBackend.epochAt
    rw [show s.backend.logAt (dataOid u t i) = none from hnone]
  unfold RAMBackend.seal at hkept ⊢
  rw [if_neg (dataOid_ne_empty u t i), if_neg (Nat.ne_of_gt hpos), hlookup] at hkept ⊢
  refine ⟨_, rfl, h.walked_setLog hkept ?_ (Nat.le_max_right _ _), ?_⟩
  · rw [hepoch]
    exact Nat.zero_le _
  · rw [objectAt_setLog, if_pos ⟨rfl, rfl⟩]
    exact Option.some_ne_none _

/-- Creating an object that a trim visits leaves fewer to create. -/
theorem Walked.missing_lt (h : Walked u name s s') {width : Nat} (ht : t < n) (hi : i < width)
    (hnone : objectAt u s.backend t i = none) (hsome : objectAt u s'.backend t i ≠ none) :
    missing u s'.backend n width < missing u s.backend n width := by
  apply Finset.card_lt_card
  -- the created object was counted before and is not now
  rw [Finset.ssubset_iff_of_subset]
  · refine ⟨(t, i), ?_, ?_⟩
    · rw [Finset.mem_filter, Option.isNone_iff_eq_none]
      exact ⟨Finset.mem_product.mpr ⟨Finset.mem_range.mpr ht, Finset.mem_range.mpr hi⟩, hnone⟩
    · rw [Finset.mem_filter, Option.isNone_iff_eq_none]
      exact fun hx => hsome hx.2
  · intro x hx
    rw [Finset.mem_filter, Option.isNone_iff_eq_none] at hx ⊢
    refine ⟨hx.1, ?_⟩
    by_contra hne
    exact h.kept _ _ hne hx.2

/-! ## A walk -/

/-- Why a walk goes back to the start: it created an object, or it found an object that is sealed
    ahead of its view and learned of the latest one. -/
inductive Restart (u : Uuid) (name : String) (p n width : Nat) (s s' : Alone) : Prop where
  | created : Walked u name s s' →
      missing u s'.backend n width < missing u s.backend n width → Restart u name p n width s s'
  | refreshed {s₁ : Alone} {t i : Nat} : Walked u name s s₁ → Refreshed u name s₁ s' →
      Covers s.view p t i → s.view.epoch < objectEpoch u s.backend t i →
      Restart u name p n width s s'

variable {width : Nat}

/-- A walk that goes back after some calls goes back for the same reason. -/
theorem Walked.restart (h : Walked u name s₁ s₂) (h' : Restart u name p n width s₂ s₃) :
    Restart u name p n width s₁ s₃ := by
  cases h' with
  | created hw hlt =>
    exact .created (h.trans hw) (Nat.lt_of_lt_of_le hlt (h.missing_le n width))
  | @refreshed s' t i hw href hcov hlt =>
    have hbound := h.bound t i
    rw [h.view] at hcov hlt
    exact .refreshed (h.trans hw) href hcov (by omega)

/-- The object is one that the walk visits in stripe `t`. -/
def Visits (v : VersionedView) (p t width : Nat) (x : String × Bool) : Prop :=
  ∃ stripe i, v.objectMap.stripeById t = .ok stripe ∧ stripe.minPosition ≤ p ∧
    x ∈ ObjectMap.mapToObjects stripe p ∧ x.1 = Stripe.oidAt t i ∧ i < width ∧ Covers v p t i

/-- The loop over the objects of one stripe. -/
theorem AloneOk.leads_trim (options : Options) (h : AloneOk u name s) (hlb : HandleOk u lb) (ht : t < n)
    {objects : List (String × Bool)} (hobj : ∀ x ∈ objects, Visits s.view p t width x) (k : Nat) :
    ∃ s', (Lib.Leads (TrimToOp.step options lb p) (.trim s.view k objects, s) (.walk s.view k, s') ∧
        Walked u name s s') ∨
      (Lib.Leads (TrimToOp.step options lb p) (.trim s.view k objects, s) (.start, s') ∧
        Restart u name p n width s s') := by
  -- by the number of objects left in the stripe
  induction objects generalizing s with
  | nil => exact ⟨s, .inl ⟨.single rfl, .refl h⟩⟩
  | cons x rest ih =>
    obtain ⟨oid, full⟩ := x
    obtain ⟨stripe, i, hs, hmin, hmem, hoid, hi, hcov⟩ := hobj _ (List.mem_cons_self ..)
    dsimp only at hoid
    subst hoid
    rcases h.trim hs hmin hmem with ⟨b, htrim, hw, -⟩ | ⟨htrim, hlt⟩ | ⟨htrim, hnone⟩
    · -- the trim is done and the loop goes on
      have hstep : TrimToOp.step options lb p (.trim s.view k ((Stripe.oidAt t i, full) :: rest), s) =
          .ok (.trim s.view k rest, { s with backend := b }) := by
        simp only [TrimToOp.step, hlb.oid, htrim]
      obtain ⟨s', ⟨hl, hw'⟩ | ⟨hl, hr⟩⟩ :=
        ih hw.ok (fun x hx => hobj x (List.mem_cons_of_mem _ hx))
      · exact ⟨s', .inl ⟨.head hstep hl, hw.trans hw'⟩⟩
      · exact ⟨s', .inr ⟨.head hstep hl, hw.restart hr⟩⟩
    · -- sealed ahead of the view: the client learns of the latest view and starts again
      obtain ⟨s', hs', href⟩ := h.update hlb
      have hstep : TrimToOp.step options lb p (.trim s.view k ((Stripe.oidAt t i, full) :: rest), s) =
          .ok (.start, s') := by
        simp only [TrimToOp.step, hlb.oid, htrim, hs']
      exact ⟨s', .inr ⟨.single hstep, .refreshed (.refl h) href hcov hlt⟩⟩
    · -- missing: it is created by a seal, and the walk starts again
      obtain ⟨b, hseal, hw, hsome⟩ := h.seal hnone
      have hstep : TrimToOp.step options lb p (.trim s.view k ((Stripe.oidAt t i, full) :: rest), s) =
          .ok (.start, { s with backend := b }) := by
        simp only [TrimToOp.step, hlb.oid, htrim, hseal]
      exact ⟨_, .inr ⟨.single hstep, .created hw (hw.missing_lt ht hi hnone hsome)⟩⟩

/-- The loop over the stripes of a view that maps the position. -/
theorem AloneOk.leads_walk (options : Options) (h : AloneOk u name s) (hlb : HandleOk u lb)
    {L : Layout} (hL : s.view.objectMap.HasLayout L n) (hlt : L.size < 2 ^ 32)
    (hp : Maps s.view p) (k : Nat) :
    ∃ s', Lib.Leads (TrimToOp.step options lb p) (.walk s.view k, s) (.done (.ok ()), s') ∨
      (Lib.Leads (TrimToOp.step options lb p) (.walk s.view k, s) (.start, s') ∧
        Restart u name p n L.width s s') := by
  obtain ⟨oid, hname⟩ := id hp
  -- by the number of stripes left
  induction hm : n - k generalizing s k with
  | zero =>
    have hstep : TrimToOp.step options lb p (.walk s.view k, s) = .ok (.done (.ok ()), s) := by
      simp only [TrimToOp.step, mapTo_done hL hname (by omega : n ≤ k)]
    exact ⟨s, .inl (.single hstep)⟩
  | succ d ih =>
    have hk : k < n := by omega
    obtain ⟨objects, hmap, hobj, -⟩ := mapTo_objects hL hlt hname hk
    have hstep : TrimToOp.step options lb p (.walk s.view k, s) =
        .ok (.trim s.view (k + 1) objects, s) := by
      simp only [TrimToOp.step, hmap]
    obtain ⟨s', ⟨hl, hw⟩ | ⟨hl, hr⟩⟩ := h.leads_trim options hlb hk hobj (k + 1)
    · -- the stripe is done, and the next ones follow
      have hview := hw.view
      obtain ⟨s'', hdone | ⟨hl', hr⟩⟩ := ih hw.ok (by rw [hview]; exact hL)
        (by rw [hview]; exact hp) (k + 1) (by rw [hview]; exact hname) (by omega)
      · rw [hview] at hdone
        exact ⟨s'', .inl (.head hstep (hl.trans hdone))⟩
      · rw [hview] at hl'
        exact ⟨s'', .inr ⟨.head hstep (hl.trans hl'), hw.restart hr⟩⟩
    · -- the walk was sent back inside this stripe
      exact ⟨s', .inr ⟨.head hstep hl, hr⟩⟩

/-! ## The rounds of the outer loop -/

/-- `run` has returned. -/
def Returned (x : TrimToPc × Alone) : Prop := ∃ ret, x.1 = .done ret

/-- `TrimToOp::run` returns from this state. -/
def TrimToOp.Returns (options : Options) (lb : LogBackend) (p : Nat) (s : Alone) : Prop :=
  Lib.Ends (TrimToOp.step options lb p) Returned (.start, s)

/-- No object that the trim visits is sealed ahead of the views. -/
def Unsealed (u : Uuid) (p : Nat) (s : Alone) : Prop :=
  ∀ t i, Covers s.view p t i → objectEpoch u s.backend t i ≤ latestEpoch u s.backend

theorem Unsealed.of_calm (h : Calm u s.backend) : Unsealed u p s := fun t i _ => h t i

theorem Unsealed.walked (h : Unsealed u p s) (hheld : Held u s.backend s.view)
    (hw : Walked u name s s') : Unsealed u p s' := by
  intro t i hcov
  rw [hw.view] at hcov
  have hbound := hw.bound t i
  have hobj := h t i hcov
  have hle := hheld.epoch_le
  rw [hw.latest]
  omega

/-- The step that starts the walk. -/
theorem step_walk (options : Options) (lb : LogBackend) (hp : p < s.view.objectMap.minValidPosition) :
    TrimToOp.step options lb p (.start, s) = .ok (.walk s.view 0, s) := by
  simp only [TrimToOp.step]
  rw [if_neg (Nat.not_le_of_lt hp)]

/-- Rounds that only create objects come to an end: there are finitely many to create. -/
theorem ends_of_rounds {I : Alone → Prop} {final : TrimToPc × Alone → Prop}
    (n width : Nat)
    (hround : ∀ s, I s → ∃ s',
      Lib.Ends (TrimToOp.step options lb p) final (.start, s) ∨
      (Lib.Leads (TrimToOp.step options lb p) (.start, s) (.start, s') ∧ I s' ∧
        missing u s'.backend n width < missing u s.backend n width)) (h : I s) :
    Lib.Ends (TrimToOp.step options lb p) final (.start, s) := by
  -- each round that goes back leaves fewer objects to create
  apply Lib.ends_of_measure (fun x => ∃ s, x = (.start, s) ∧ I s)
    (fun x => missing u x.2.backend n width) _ ⟨s, rfl, h⟩
  rintro _ ⟨s, rfl, hs⟩
  obtain ⟨s', hends | ⟨hl, hs', hlt⟩⟩ := hround s hs
  · exact ⟨_, .refl _, .inl hends⟩
  · exact ⟨_, hl, .inr ⟨⟨s', rfl, hs'⟩, hlt⟩⟩

/-- With the latest view, below its minimum valid position and with no object sealed ahead, the
    walk of a mapped position returns. -/
theorem AloneOk.returns_current (h : AloneOk u name s) (hlb : HandleOk u lb)
    (hfits : options.Fits) (hcur : Current u s) (hp : p < s.view.objectMap.minValidPosition)
    (hmap : Maps s.view p) (hun : Unsealed u p s) : TrimToOp.Returns options lb p s := by
  obtain ⟨L, hlt, hL⟩ := h.layout hfits
  have hLv := hL _ h.held.mem
  -- the view stays the same in all rounds
  refine ends_of_rounds (u := u) (I := fun s' => Walked u name s s')
    s.view.objectMap.nextStripeId L.width ?_ (.refl h)
  intro s' hw
  have hview := hw.view
  obtain ⟨s'', hdone | ⟨hl, hr⟩⟩ := hw.ok.leads_walk options hlb
    (by rw [hview]; exact hLv) hlt (show Maps s'.view p by rw [hview]; exact hmap) 0
  · refine ⟨s'', .inl ?_⟩
    have hfinal : Lib.Ends (TrimToOp.step options lb p) Returned (.done (.ok ()), s'') :=
      .of_final ⟨_, rfl⟩
    exact hfinal.of_leads (.head (step_walk options lb (by rw [hview]; exact hp)) hdone)
  · refine ⟨s'', .inr ⟨.head (step_walk options lb (by rw [hview]; exact hp)) hl, ?_⟩⟩
    cases hr with
    | created hw' hlt' => exact ⟨hw.trans hw', hlt'⟩
    | refreshed _ _ hcov hahead =>
      -- nothing is ahead of the latest view
      exfalso
      have hobj := hun.walked h.held hw _ _ hcov
      unfold Current at hcur
      rw [hview, hcur] at hahead
      rw [hw.latest] at hobj
      omega

/-- What a later view maps up to a position that the earlier view maps, the earlier view maps too. -/
theorem LogOk.names_earlier {b : Store} (h : LogOk u name b) {e e' q : Nat} {v v' : View}
    (hv : ViewAt (viewsOf u b) e v) (hv' : ViewAt (viewsOf u b) e' v') (hle : e ≤ e')
    (hsmall : v.objectMap.Small) {oid oid' : String} (hp : v.objectMap.Names p oid) (hq : q ≤ p)
    (hname : v'.objectMap.Names q oid') : v.objectMap.Names q oid' := by
  -- both views map a position in the same way, and the earlier one maps all up to `p`
  have hpart := ObjectMap.isPartition hsmall
  obtain ⟨hne, hpmax⟩ := (hpart.mapped p).mp ⟨oid, hp⟩
  obtain ⟨oid₁, last₁, h₁⟩ := (hpart.mapped q).mpr ⟨hne, Nat.le_trans hq hpmax⟩
  obtain ⟨last₂, h₂⟩ := h.history.map_stable hv hv' hle h₁
  obtain ⟨last', hmap⟩ := hname
  rw [h₂] at hmap
  cases hmap
  exact ⟨last₁, h₁⟩

/-- What the client knows of the view it refreshed to. -/
theorem Refreshed.later (h : AloneOk u name s) (href : Refreshed u name s s') :
    s.view.objectMap.minValidPosition ≤ s'.view.objectMap.minValidPosition ∧
      (Maps s.view p → Maps s'.view p) ∧
      (Maps s.view p → ∀ t i, Covers s'.view p t i → Covers s.view p t i) := by
  have hold : ViewAt (viewsOf u s'.backend) s.view.epoch s.view.view := by
    rw [href.backend]
    exact h.held
  have hnew : ViewAt (viewsOf u s'.backend) s'.view.epoch s'.view.view := href.ok.held
  have hle : s.view.epoch ≤ s'.view.epoch := by
    rw [href.current]
    exact hold.le_length
  -- the two views are entries of one history
  refine ⟨(href.ok.log.history.mono hold hnew hle).2, ?_, ?_⟩
  · rintro ⟨oid, last, hmap⟩
    obtain ⟨last', hmap'⟩ := href.ok.log.history.map_stable hold hnew hle hmap
    exact ⟨oid, last', hmap'⟩
  · rintro ⟨oid, hname⟩ t i ⟨q, hq, hcov⟩
    exact ⟨q, hq, href.ok.log.names_earlier hold hnew hle h.smallView hname hq hcov⟩

/-- The same with any view: a walk that finds an object ahead of its view goes on with the latest. -/
theorem AloneOk.returns_mapped (h : AloneOk u name s) (hlb : HandleOk u lb)
    (hfits : options.Fits) (hp : p < s.view.objectMap.minValidPosition)
    (hmap : Maps s.view p) (hun : Unsealed u p s) : TrimToOp.Returns options lb p s := by
  obtain ⟨L, hlt, hL⟩ := h.layout hfits
  have hLv := hL _ h.held.mem
  refine ends_of_rounds (u := u) (I := fun s' => Walked u name s s')
    s.view.objectMap.nextStripeId L.width ?_ (.refl h)
  intro s' hw
  have hview := hw.view
  obtain ⟨s'', hdone | ⟨hl, hr⟩⟩ := hw.ok.leads_walk options hlb
    (by rw [hview]; exact hLv) hlt (show Maps s'.view p by rw [hview]; exact hmap) 0
  · refine ⟨s'', .inl ?_⟩
    have hfinal : Lib.Ends (TrimToOp.step options lb p) Returned (.done (.ok ()), s'') :=
      .of_final ⟨_, rfl⟩
    exact hfinal.of_leads (.head (step_walk options lb (by rw [hview]; exact hp)) hdone)
  · have hleads := Lib.Leads.head
      (step_walk options lb (by rw [hview]; exact hp)) hl
    cases hr with
    | created hw' hlt' => exact ⟨s'', .inr ⟨hleads, hw.trans hw', hlt'⟩⟩
    -- on the latest view the rounds go on as in the previous lemma
    | @refreshed s₁ t i hw' href _ _ =>
      have hw₁ := hw.trans hw'
      have hun₁ := hun.walked h.held hw₁
      obtain ⟨hmin, hmaps, hcovers⟩ := href.later (p := p) hw₁.ok
      have hmap₁ : Maps s₁.view p := by
        rw [hw₁.view]
        exact hmap
      have hends : TrimToOp.Returns options lb p s'' := by
        apply href.ok.returns_current hlb hfits href.current
        · rw [hw₁.view] at hmin
          exact Nat.lt_of_lt_of_le hp hmin
        · exact hmaps hmap₁
        · intro t' i' hcov
          rw [href.backend]
          exact hun₁ t' i' (hcovers hmap₁ t' i' hcov)
      exact ⟨s'', .inl (Lib.Ends.of_leads hends hleads)⟩

/-- Below the minimum valid position of the latest view, an unmapped position is mapped first. -/
theorem AloneOk.returns_below (h : AloneOk u name s) (hlb : HandleOk u lb) (hfits : options.Fits)
    (hcur : Current u s) (hp : p < s.view.objectMap.minValidPosition)
    (hun : Maps s.view p → Unsealed u p s) : TrimToOp.Returns options lb p s := by
  by_cases hmap : Maps s.view p
  · exact h.returns_mapped hlb hfits hp hmap (hun hmap)
  · -- the first walk finds the position unmapped and expands the view
    obtain ⟨m', s', hexp, hnew, hmap', hmv⟩ := h.expand_current hlb hfits hcur hmap 6
    have hstep : TrimToOp.step options lb p (.walk s.view 0, s) = .ok (.start, s') := by
      simp only [TrimToOp.step, mapTo_unmapped h.smallView hmap, hexp]
    have hends : TrimToOp.Returns options lb p s' :=
      hnew.ok.returns_mapped hlb hfits (by rw [hmv]; exact hp) hmap' (.of_calm hnew.calm)
    exact Lib.Ends.of_leads hends (.head (step_walk options lb hp) (.single hstep))

/-- The object is sealed for an epoch that has no view, and the trim of `p` visits it, where `p` is
    mapped and was trimmed before. -/
structure SealedAt (u : Uuid) (b : Store) (p t i : Nat) (v : View) : Prop where
  latest : ViewAt (viewsOf u b) (latestEpoch u b) v
  trimmed : p < v.objectMap.minValidPosition
  mapped : ∃ oid, v.objectMap.Names p oid
  visited : ∃ q ≤ p, v.objectMap.Names q (Stripe.oidAt t i)
  ahead : latestEpoch u b < objectEpoch u b t i

/-- Some object is. -/
def SealedAhead (u : Uuid) (b : Store) (p : Nat) : Prop := ∃ t i v, SealedAt u b p t i v

/-- With the latest view. -/
theorem AloneOk.returns_latest (h : AloneOk u name s) (hlb : HandleOk u lb) (hfits : options.Fits)
    (hcur : Current u s) (hnext : p < nextPosition p) (hfree : ¬ SealedAhead u s.backend p) :
    TrimToOp.Returns options lb p s := by
  -- at or above the minimum valid position, `trimTo` first proposes a view with a greater one
  by_cases hp : s.view.objectMap.minValidPosition ≤ p
  · obtain ⟨s', hadv, ⟨hno, -⟩ | ⟨-, hnew⟩⟩ := h.advance hlb (Nat.lt_of_le_of_lt hp hnext)
    · exact absurd hcur hno
    · have hstep : TrimToOp.step options lb p (.start, s) = .ok (.start, s') := by
        simp only [TrimToOp.step, if_pos hp, hadv]
      have hends : TrimToOp.Returns options lb p s' := by
        apply hnew.ok.returns_below hlb hfits hnew.current
        · rw [hnew.objectMap]
          exact hnext
        · intro _
          exact .of_calm hnew.calm
      exact Lib.Ends.of_leads hends (.single hstep)
  · -- below it, the walk starts at once
    apply h.returns_below hlb hfits hcur (Nat.lt_of_not_le hp)
    intro hmap t i hcov
    by_contra hlt
    refine hfree ⟨t, i, s.view.view, ?_, Nat.lt_of_not_le hp, hmap, hcov, Nat.lt_of_not_le hlt⟩
    have hheld := h.held
    unfold Held at hheld
    rwa [hcur] at hheld

/-- With any view. -/
theorem AloneOk.returns (h : AloneOk u name s) (hlb : HandleOk u lb) (hfits : options.Fits)
    (hnext : p < nextPosition p) (hfree : ¬ SealedAhead u s.backend p) :
    TrimToOp.Returns options lb p s := by
  by_cases hcur : Current u s
  · exact h.returns_latest hlb hfits hcur hnext hfree
  · have hrefreshed : ∀ s', Refreshed u name s s' → TrimToOp.Returns options lb p s' := by
      intro s' href
      apply href.ok.returns_latest hlb hfits href.current hnext
      rw [href.backend]
      exact hfree
    by_cases hp : s.view.objectMap.minValidPosition ≤ p
    · -- an old view: the proposal is refused, and the latest view is taken instead
      obtain ⟨s', hadv, ⟨-, href⟩ | ⟨hyes, -⟩⟩ := h.advance hlb (Nat.lt_of_le_of_lt hp hnext)
      · have hstep : TrimToOp.step options lb p (.start, s) = .ok (.start, s') := by
          simp only [TrimToOp.step, if_pos hp, hadv]
        exact Lib.Ends.of_leads (hrefreshed s' href) (.single hstep)
      · exact absurd hyes hcur
    · have hp := Nat.lt_of_not_le hp
      by_cases hmap : Maps s.view p
      · apply h.returns_mapped hlb hfits hp hmap
        -- an object ahead of the views would be ahead of the latest one
        intro t i ⟨q, hq, hcov⟩
        by_contra hlt
        obtain ⟨v, hv⟩ := h.log.latest
        have hle := h.held.epoch_le
        obtain ⟨oid, last, hp'⟩ := hmap
        obtain ⟨last', hp''⟩ := h.log.history.map_stable h.held hv hle hp'
        obtain ⟨lastq, hq'⟩ := hcov
        obtain ⟨lastq', hq''⟩ := h.log.history.map_stable h.held hv hle hq'
        exact hfree ⟨t, i, v, hv, Nat.lt_of_lt_of_le hp (h.log.history.mono h.held hv hle).2,
          ⟨oid, last', hp''⟩, ⟨q, hq, lastq', hq''⟩, Nat.lt_of_not_le hlt⟩
      · obtain ⟨s₁, href, hexp⟩ := h.expand_stale hlb hfits hcur hmap 6
        have hends : ∀ s', s₁.tryExpandView options lb p 6 = .ok (.ok (), s') →
            TrimToOp.Returns options lb p s' → TrimToOp.Returns options lb p s := by
          intro s' hs' hends
          have hstep : TrimToOp.step options lb p (.walk s.view 0, s) = .ok (.start, s') := by
            simp only [TrimToOp.step, mapTo_unmapped h.smallView hmap, hexp, hs']
          exact Lib.Ends.of_leads hends (.head (step_walk options lb hp) (.single hstep))
        -- the latest view may map the position already
        by_cases hmap₁ : Maps s₁.view p
        · exact hends s₁ (href.ok.expand_mapped hfits hmap₁ 5) (hrefreshed s₁ href)
        · obtain ⟨m', s', hs', hnew, -, hmv⟩ :=
            href.ok.expand_current hlb hfits href.current hmap₁ 5
          apply hends s' hs'
          apply hnew.ok.returns_below hlb hfits hnew.current
          · rw [hmv]
            exact Nat.lt_of_lt_of_le hp (href.later (p := p) h).1
          · intro _
            exact .of_calm hnew.calm

/-! ## Where it does not return -/

/-- `position_ + 1` is 0: the guard stays true and nothing ever changes. -/
theorem not_returns_of_wrap (hnext : nextPosition p = 0)
    (hp : s.view.objectMap.minValidPosition ≤ p) : ¬ TrimToOp.Returns options lb p s := by
  -- the state before the guard never changes
  apply Lib.not_ends_of_invariant (fun x => x = (.start, s)) _ _ rfl
  · rintro _ rfl ⟨ret, hret⟩
    cases hret
  · rintro _ y rfl hstep
    have hadv : s.advanceMinValidPosition lb (nextPosition p) = .ok (.ok (), s) := by
      unfold Alone.advanceMinValidPosition View.advanceMinValidPosition
        ObjectMap.advanceMinValidPosition
      dsimp only
      rw [hnext, if_pos (Nat.zero_le _)]
    simp only [TrimToOp.step, if_pos hp, hadv] at hstep
    cases hstep
    rfl

theorem SealedAt.walked {v : View} (h : SealedAt u s.backend p t i v) (hw : Walked u name s s') :
    SealedAt u s'.backend p t i v := by
  refine ⟨?_, h.trimmed, h.mapped, h.visited, ?_⟩
  · rw [hw.views, hw.latest]
    exact h.latest
  · rw [hw.latest]
    exact Nat.lt_of_lt_of_le h.ahead (hw.grows t i)

/-- Where the walk is while it has not passed an object that it cannot pass. -/
def BeforeObject (p t i width : Nat) (s : Alone) : TrimToPc → Prop
  | .start => True
  | .walk v k => v = s.view ∧ k ≤ t
  | .trim v k objects => v = s.view ∧ ∃ k', k = k' + 1 ∧
      (∀ x ∈ objects, Visits v p k' width x) ∧
      (k' < t ∨ (k' = t ∧ ∃ full, (Stripe.oidAt t i, full) ∈ objects))
  | .done _ => False

/-- A step of a trim that cannot pass the object. -/
theorem AloneOk.stuck_step (h : AloneOk u name s) (hlb : HandleOk u lb) (hfits : options.Fits)
    {v : View} (hs : SealedAt u s.backend p t i v) (hnext : p < nextPosition p) {L : Layout}
    (hlt : L.size < 2 ^ 32)
    (hL : ∀ v ∈ viewsOf u s.backend, v.objectMap.HasLayout L v.objectMap.nextStripeId)
    {pc : TrimToPc} (hpc : BeforeObject p t i L.width s pc) {y : TrimToPc × Alone}
    (hstep : TrimToOp.step options lb p (pc, s) = .ok y) :
    AloneOk u name y.2 ∧ SealedAt u y.2.backend p t i v ∧
      viewsOf u y.2.backend = viewsOf u s.backend ∧ BeforeObject p t i L.width y.2 y.1 := by
  have hle : s.view.epoch ≤ latestEpoch u s.backend := h.held.epoch_le
  have hrefreshed : ∀ s', Refreshed u name s s' → y = (.start, s') →
      AloneOk u name y.2 ∧ SealedAt u y.2.backend p t i v ∧
        viewsOf u y.2.backend = viewsOf u s.backend ∧ BeforeObject p t i L.width y.2 y.1 := by
    rintro s' href rfl
    rw [href.backend]
    exact ⟨href.ok, hs, rfl, trivial⟩
  -- the client's view is the latest one or learns of it
  have hview : Current u s → s.view.view = v := by
    intro hcur
    have hheld := h.held
    unfold Held at hheld
    rw [hcur] at hheld
    exact hheld.unique hs.latest
  cases pc with
  | start =>
    by_cases hp : s.view.objectMap.minValidPosition ≤ p
    · obtain ⟨s', hadv, ⟨-, href⟩ | ⟨hcur, -⟩⟩ := h.advance hlb (Nat.lt_of_le_of_lt hp hnext)
      · simp only [TrimToOp.step, if_pos hp, hadv] at hstep
        cases hstep
        exact hrefreshed s' href rfl
      · -- a proposal on the latest view contradicts that it was trimmed before
        exfalso
        have htrimmed := hs.trimmed
        rw [← hview hcur] at htrimmed
        exact Nat.not_lt_of_le hp htrimmed
    · rw [step_walk options lb (Nat.lt_of_not_le hp)] at hstep
      cases hstep
      exact ⟨h, hs, rfl, rfl, Nat.zero_le _⟩
  | walk w k =>
    obtain ⟨rfl, hk⟩ := hpc
    by_cases hmap : Maps s.view p
    · -- the walk comes to the stripe of the object, or is still before it
      obtain ⟨oid, hname⟩ := hmap
      obtain ⟨q, hq, hvis⟩ := hs.visited
      have hvis' := h.log.names_earlier h.held hs.latest hle h.smallView hname hq hvis
      have hLv := hL _ h.held.mem
      obtain ⟨hin, hoid⟩ := (names_iff_layout hLv hlt).mp hvis'
      obtain ⟨hdiv, -⟩ := oidAt_injective hoid
      have htn : t < s.view.objectMap.nextStripeId := by
        rw [hdiv]
        exact Nat.div_lt_of_lt_mul (by rwa [Nat.mul_comm])
      obtain ⟨objects, hto, hobj, hall⟩ := mapTo_objects hLv hlt hname (Nat.lt_of_le_of_lt hk htn)
      simp only [TrimToOp.step] at hstep
      rw [show s.view.objectMap.mapTo p k = _ from hto] at hstep
      cases hstep
      refine ⟨h, hs, rfl, rfl, k, rfl, hobj, ?_⟩
      rcases Nat.lt_or_eq_of_le hk with hlt' | rfl
      · exact .inl hlt'
      · exact .inr ⟨rfl, hall i ⟨q, hq, hvis'⟩⟩
    · -- only an older view does not map the position
      have hcur : ¬ Current u s := by
        intro hcur
        apply hmap
        unfold Maps VersionedView.objectMap
        rw [hview hcur]
        exact hs.mapped
      obtain ⟨s₁, href, hexp⟩ := h.expand_stale hlb hfits hcur hmap 6
      have hmap₁ : Maps s₁.view p := by
        have hheld := href.ok.held
        unfold Held at hheld
        rw [href.current, href.backend] at hheld
        unfold Maps VersionedView.objectMap
        rw [hheld.unique hs.latest]
        exact hs.mapped
      rw [href.ok.expand_mapped hfits hmap₁ 5] at hexp
      simp only [TrimToOp.step, mapTo_unmapped h.smallView hmap, hexp] at hstep
      cases hstep
      exact hrefreshed s₁ href rfl
  | trim w k objects =>
    obtain ⟨rfl, k', rfl, hobj, hbefore⟩ := hpc
    cases objects with
    | nil =>
      simp only [TrimToOp.step] at hstep
      cases hstep
      -- at the end of a stripe before the object; in its own stripe it is still on the list
      rcases hbefore with hk | ⟨-, full, hmem⟩
      · exact ⟨h, hs, rfl, rfl, hk⟩
      · cases hmem
    | cons x rest =>
      obtain ⟨oid, full⟩ := x
      obtain ⟨stripe, j, hstripe, hmin, hmem, hoid, -, -⟩ := hobj _ (List.mem_cons_self ..)
      dsimp only at hoid
      subst hoid
      rcases h.trim hstripe hmin hmem with ⟨b, htrim, hw, hepoch⟩ | ⟨htrim, -⟩ | ⟨htrim, hnone⟩
      · -- a trim that is done is not one of the sealed object
        simp only [TrimToOp.step, hlb.oid, htrim] at hstep
        cases hstep
        refine ⟨hw.ok, hs.walked hw, hw.views, rfl, k', rfl,
          fun x hx => hobj x (List.mem_cons_of_mem _ hx), ?_⟩
        rcases hbefore with hk | ⟨rfl, full', hmem'⟩
        · exact .inl hk
        · refine .inr ⟨rfl, full', ?_⟩
          rcases List.mem_cons.mp hmem' with heq | hrest
          · -- a trim of the sealed object is refused
            exfalso
            obtain ⟨-, hij⟩ := oidAt_injective (Prod.mk.inj heq).1
            rw [← hij] at hepoch
            have hahead := hs.ahead
            omega
          · exact hrest
      · obtain ⟨s', hs', href⟩ := h.update hlb
        simp only [TrimToOp.step, hlb.oid, htrim, hs'] at hstep
        cases hstep
        exact hrefreshed s' href rfl
      · -- creating another object starts the walk again
        obtain ⟨b, hseal, hw, -⟩ := h.seal hnone
        simp only [TrimToOp.step, hlb.oid, htrim, hseal] at hstep
        cases hstep
        exact ⟨hw.ok, hs.walked hw, hw.views, trivial⟩
  | done ret => exact hpc.elim

/-- An object that stays sealed ahead of the views sends the walk back to the start every time. -/
theorem AloneOk.not_returns (h : AloneOk u name s) (hlb : HandleOk u lb) (hfits : options.Fits)
    (hnext : p < nextPosition p) (hs : SealedAhead u s.backend p) :
    ¬ TrimToOp.Returns options lb p s := by
  obtain ⟨t, i, v, hs⟩ := hs
  obtain ⟨L, hlt, hL⟩ := h.layout hfits
  -- the invariant says where the walk is; it is never done
  refine Lib.not_ends_of_invariant (fun x => AloneOk u name x.2 ∧ SealedAt u x.2.backend p t i v ∧
    viewsOf u x.2.backend = viewsOf u s.backend ∧ BeforeObject p t i L.width x.2 x.1) ?_ ?_
    ⟨h, hs, rfl, trivial⟩
  · rintro ⟨pc, s'⟩ ⟨-, -, -, hpc⟩ ⟨ret, hret⟩
    dsimp only at hret hpc
    rw [hret] at hpc
    exact hpc
  · rintro ⟨pc, s'⟩ y ⟨hok, hs', hviews, hpc⟩ hstep
    obtain ⟨hok', hs'', hviews', hpc'⟩ := hok.stuck_step hlb hfits hs' hnext hlt
      (by rw [hviews]; exact hL) hpc hstep
    exact ⟨hok', hs'', hviews'.trans hviews, hpc'⟩

/-! ## The result -/

/-- The calls into the view manager return: no 32-bit size of a stripe wraps. -/
structure CallsReturn (u : Uuid) (b : Store) (options : Options) : Prop where
  fits : options.Fits
  small : ∀ v ∈ viewsOf u b, v.objectMap.Small

/-- **trimTo returns** for a client that is alone exactly when `position_ + 1` does not wrap and no
    object that a repeated trim visits is sealed ahead of the views. -/
theorem trimTo_ends {w w₀ : World} {creator : Options} {host : Host}
    (h₀ : World.init name u creator host = some w₀) (h : Lib.Reaches World.step w₀ w) {cid : Nat}
    {c : Client} {v : VersionedView} (hc : w.clients[cid]? = some c)
    (hlb : c.shared.backend = some lb) (hv : c.shared.view = some v)
    (hcalls : CallsReturn u w.backend c.options) (hmin : v.objectMap.minValidPosition < 2 ^ 64)
    (hp : p < 2 ^ 64) :
    TrimToOp.Returns c.options lb p ⟨w.backend, v⟩ ↔
      p ≠ 2 ^ 64 - 1 ∧ ¬ SealedAhead u w.backend p := by
  have hI := (Inv.init h₀).of_reaches h
  have hshared := (hI.clients c (List.mem_of_getElem? hc)).shared
  have hok : AloneOk u name ⟨w.backend, v⟩ := ⟨hI.log, hshared.view v hv, hcalls.small⟩
  have hhandle : HandleOk u lb := hshared.backend lb hlb
  -- the last position wraps the guard; all others are covered by the two lemmas
  by_cases hlast : p = 2 ^ 64 - 1
  · have hnext : nextPosition p = 0 := by
      rw [hlast]
      rfl
    refine ⟨fun hr => absurd hr (not_returns_of_wrap hnext ?_), fun hr => absurd hlast hr.1⟩
    show v.objectMap.minValidPosition ≤ p
    omega
  · have hnext : p < nextPosition p := by
      unfold nextPosition
      omega
    constructor
    · intro hr
      exact ⟨hlast, fun hs => hok.not_returns hhandle hcalls.fits hnext hs hr⟩
    · intro hr
      exact hok.returns hhandle hcalls.fits hnext hr.2

/-- The first client of a small log and its view. -/
def Sample.alone (actions : List Action) : Option (World × Client × LogBackend × VersionedView) :=
  (Sample.world actions).bind fun w => w.clients[0]?.bind fun c =>
    c.shared.backend.bind fun lb => c.shared.view.map fun v => (w, c, lb, v)

theorem Sample.of_alone {actions : List Action} {w : World} {c : Client} {v : VersionedView}
    (h : Sample.alone actions = some (w, c, lb, v)) :
    Sample.world actions = some w ∧ w.clients[0]? = some c ∧ c.shared.backend = some lb ∧
      c.shared.view = some v := by
  obtain ⟨w', hw, h⟩ := Option.bind_eq_some_iff.mp h
  obtain ⟨c', hc, h⟩ := Option.bind_eq_some_iff.mp h
  obtain ⟨lb', hlb, h⟩ := Option.bind_eq_some_iff.mp h
  obtain ⟨v', hv, h⟩ := Option.map_eq_some_iff.mp h
  cases h
  exact ⟨hw, hc, hlb, hv⟩

instance (m : ObjectMap) : Decidable m.Small := by
  unfold ObjectMap.Small
  infer_instance

set_option maxRecDepth 100000 in
/-- After the log is opened, a trim of position 0 returns. -/
theorem trimTo_ends_opened :
    ∃ w c lb v, Sample.alone Sample.opened = some (w, c, lb, v) ∧
      TrimToOp.Returns c.options lb 0 ⟨w.backend, v⟩ := by
  have hrun : (Sample.alone Sample.opened).map (fun x : World × Client × LogBackend ×
      VersionedView => (x.2.1.options, decide (∀ v ∈ viewsOf Sample.uuid x.1.backend, v.objectMap.Small),
        (viewsOf Sample.uuid x.1.backend).getLast?.map (fun v => v.objectMap.minValidPosition),
        x.2.2.2.objectMap.minValidPosition)) =
      some (Sample.options, true, some 0, 0) := by decide +kernel
  obtain ⟨⟨w, c, lb, v⟩, halone, heq⟩ := Option.map_eq_some_iff.mp hrun
  obtain ⟨hw, hc, hlb, hv⟩ := Sample.of_alone halone
  simp only [Prod.mk.injEq] at heq
  obtain ⟨hopt, hsmall, hlatest, hmin⟩ := heq
  obtain ⟨w₀, h₀, h⟩ := Sample.reaches hw
  have hfits : Sample.options.Fits := ⟨by decide, by decide, by decide⟩
  refine ⟨w, c, lb, v, halone, (trimTo_ends h₀ h hc hlb hv ⟨by rw [hopt]; exact hfits,
    of_decide_eq_true hsmall⟩ (by rw [hmin]; decide) (by decide)).mpr ⟨by decide, ?_⟩⟩
  rintro ⟨t, i, v', hs⟩
  have htrimmed := hs.trimmed
  rw [getLast?_viewsOf hs.latest] at hlatest
  have hzero : v'.objectMap.minValidPosition = 0 := Option.some.inj hlatest
  omega

set_option maxRecDepth 100000 in
/-- There, a trim of the largest position never returns. -/
theorem trimTo_wraps :
    ∃ w c lb v, Sample.alone Sample.opened = some (w, c, lb, v) ∧
      ¬ TrimToOp.Returns c.options lb (2 ^ 64 - 1) ⟨w.backend, v⟩ := by
  have hrun : (Sample.alone Sample.opened).map (fun x => x.2.2.2.objectMap.minValidPosition) =
      some 0 := by decide +kernel
  obtain ⟨⟨w, c, lb, v⟩, halone, hmin⟩ := Option.map_eq_some_iff.mp hrun
  refine ⟨w, c, lb, v, halone, not_returns_of_wrap rfl ?_⟩
  show v.objectMap.minValidPosition ≤ 2 ^ 64 - 1
  rw [hmin]
  exact Nat.zero_le _

end ZLog
