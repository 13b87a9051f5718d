import ZLog.Mapping.View

/-!
# View histories

The views of a log, in the order of their epochs.  The three ways in which the client builds a
new view from a stored one (`NextView`) keep a history well formed: every view reads back from
its blob, all views share one layout, and neither the mapping nor the minimum valid position
ever shrinks.

## Main results

- `HistoryOk.snoc`: appending a next view keeps the history well formed.
- `HistoryOk.map_stable`: a mapped position keeps its object in every later view.
- `HistoryOk.config_mono`: sequencer configurations never go back.
- `HistoryOk.config_origin`: a configuration is that of the view of its own epoch.
-/

namespace ZLog

/-- `v` is the view of epoch `e`. -/
def ViewAt (vs : List View) (e : Nat) (v : View) : Prop := 0 < e ∧ vs[e - 1]? = some v

/-- Epochs go up to the number of views. -/
theorem ViewAt.le_length {vs : List View} {e : Nat} {v : View} (h : ViewAt vs e v) :
    e ≤ vs.length := by
  obtain ⟨hlt, -⟩ := List.getElem?_eq_some_iff.mp h.2
  have := h.1
  omega

/-- A view keeps its epoch. -/
theorem ViewAt.mono {vs vs' : List View} {e : Nat} {v : View} (h : ViewAt vs e v)
    (hp : vs <+: vs') : ViewAt vs' e v := by
  obtain ⟨ws, rfl⟩ := hp
  obtain ⟨hlt, -⟩ := List.getElem?_eq_some_iff.mp h.2
  exact ⟨h.1, by rw [List.getElem?_append_left hlt]; exact h.2⟩

/-- An epoch has one view. -/
theorem ViewAt.unique {vs : List View} {e : Nat} {v v' : View} (h : ViewAt vs e v)
    (h' : ViewAt vs e v') : v = v' := Option.some.inj (h.2.symm.trans h'.2)

/-- It is one of the views. -/
theorem ViewAt.mem {vs : List View} {e : Nat} {v : View} (h : ViewAt vs e v) : v ∈ vs :=
  List.mem_of_getElem? h.2

/-- Every epoch up to the last one has a view. -/
theorem exists_viewAt {vs : List View} {e : Nat} (h0 : 0 < e) (he : e ≤ vs.length) :
    ∃ v, ViewAt vs e v :=
  ⟨vs[e - 1], h0, List.getElem?_eq_getElem (by omega)⟩

/-- Every view has an epoch. -/
theorem viewAt_of_mem {vs : List View} {v : View} (h : v ∈ vs) : ∃ e, ViewAt vs e v := by
  obtain ⟨i, hi, rfl⟩ := List.mem_iff_getElem.mp h
  exact ⟨i + 1, by omega, by simp [hi]⟩

/-- The view that was stored last has the last epoch. -/
theorem viewAt_append_last (vs : List View) (v : View) : ViewAt (vs ++ [v]) (vs.length + 1) v :=
  ⟨by omega, by simp⟩

/-- A view of an extended history is old or the new one. -/
theorem viewAt_append {vs : List View} {v w : View} {e : Nat} (h : ViewAt (vs ++ [v]) e w) :
    ViewAt vs e w ∨ (e = vs.length + 1 ∧ w = v) := by
  obtain ⟨h0, h⟩ := h
  rcases Nat.lt_or_ge (e - 1) vs.length with hlt | hge
  · rw [List.getElem?_append_left hlt] at h
    exact Or.inl ⟨h0, h⟩
  · have hle := (List.getElem?_eq_some_iff.mp h).1
    simp only [List.length_append, List.length_singleton] at hle
    have he : e = vs.length + 1 := by omega
    subst he
    simp only [Nat.add_sub_cancel, List.getElem?_append_right (Nat.le_refl _), Nat.sub_self,
      List.getElem?_cons_zero, Option.some.injEq] at h
    exact Or.inr ⟨rfl, h.symm⟩

/-! ## Well-formed histories -/

/-- What one proposal may change. -/
structure StepOk (e : Nat) (v v' : View) : Prop where
  stripes : v.objectMap.nextStripeId ≤ v'.objectMap.nextStripeId
  minValid : v.objectMap.minValidPosition ≤ v'.objectMap.minValidPosition
  config : v'.seqConfig = v.seqConfig ∨ ∃ c, v'.seqConfig = some c ∧ c.epoch = e + 1

/-- The views of a log, oldest first. -/
structure HistoryOk (vs : List View) : Prop where
  ne_nil : vs ≠ []
  layout : ∃ L, ∀ v ∈ vs, v.objectMap.HasLayout L v.objectMap.nextStripeId
  storable : ∀ v ∈ vs, v.Storable ∧ v.stored = v
  step : ∀ e v v', ViewAt vs e v → ViewAt vs (e + 1) v' → StepOk e v v'
  config : ∀ e v c, ViewAt vs e v → v.seqConfig = some c → 0 < c.epoch ∧ c.epoch ≤ e

/-- The ways in which clients build the view of the next epoch. -/
inductive NextView (e : Nat) (v : View) : View → Prop where
  | expand {v' : View} (position : Nat) (options : Options) :
      v.expandMapping position options = .ok (some v') → NextView e v v'
  | advance {v' : View} (position : Nat) :
      v.advanceMinValidPosition position = some v' → NextView e v v'
  | sequencer (token : String) (seed : Nat) : cStr token ≠ "" →
      NextView e v (v.withSequencerConfig ⟨e + 1, token, seed⟩)

section

variable {vs : List View} {e : Nat} {v v' : View}

/-- The number of stripes is the next id. -/
theorem ObjectMap.HasLayout.self {m : ObjectMap} {L : Layout} {n : Nat} (h : m.HasLayout L n) :
    m.HasLayout L m.nextStripeId := h.next ▸ h

/-- The configuration of a next view. -/
theorem NextView.config (hn : NextView e v v') :
    v'.seqConfig = v.seqConfig ∨ ∃ c, v'.seqConfig = some c ∧ c.epoch = e + 1 ∧
      cStr c.token ≠ "" := by
  -- only a proposed sequencer changes the configuration
  cases hn with
  | expand p o h =>
    unfold View.expandMapping at h
    split at h
    · cases h
    · cases h
    · cases h
      exact Or.inl rfl
  | advance p h =>
    unfold View.advanceMinValidPosition at h
    split at h
    · cases h
    · cases h
      exact Or.inl rfl
  | sequencer token seed ht => exact Or.inr ⟨_, rfl, rfl, ht⟩

/-- The object map of a next view: the same layout, at least as many stripes. -/
theorem NextView.objectMap {L : Layout} (hn : NextView e v v')
    (hv : v.objectMap.HasLayout L v.objectMap.nextStripeId) :
    v.objectMap.minValidPosition ≤ v'.objectMap.minValidPosition ∧
    v.objectMap.nextStripeId ≤ v'.objectMap.nextStripeId ∧
    ∃ L', v'.objectMap.HasLayout L' v'.objectMap.nextStripeId ∧
      (0 < v.objectMap.nextStripeId → L' = L) := by
  -- an expansion adds stripes, an advance raises the minimum, a sequencer changes neither
  cases hn with
  | expand p o h =>
    unfold View.expandMapping at h
    split at h
    · cases h
    · cases h
    · next m hm =>
      cases h
      obtain ⟨L', n', hl, hL, hlt, -, -, -, hmv⟩ := hv.expandMapping hm
      have hnext := hl.next
      exact ⟨le_of_eq hmv.symm, by dsimp only; omega, L', hl.self, hL⟩
  | advance p h =>
    unfold View.advanceMinValidPosition at h
    split at h
    · cases h
    · next m hm =>
      cases h
      obtain ⟨hlt, rfl⟩ := ObjectMap.advanceMinValidPosition_some hm
      exact ⟨le_of_lt hlt, le_refl _, L, hv.congr rfl rfl, fun _ => rfl⟩
  | sequencer token seed ht => exact ⟨le_refl _, le_refl _, L, hv, fun _ => rfl⟩

/-- The layout of every view in the history. -/
theorem HistoryOk.layout_at (h : HistoryOk vs) :
    ∃ L, ∀ e v, ViewAt vs e v → v.objectMap.HasLayout L v.objectMap.nextStripeId := by
  obtain ⟨L, hL⟩ := h.layout
  exact ⟨L, fun e v hv => hL v hv.mem⟩

/-- Stripes and the minimum valid position grow along the history. -/
theorem HistoryOk.mono (h : HistoryOk vs) {e' : Nat} (hv : ViewAt vs e v)
    (hv' : ViewAt vs e' v') (hle : e ≤ e') :
    v.objectMap.nextStripeId ≤ v'.objectMap.nextStripeId ∧
      v.objectMap.minValidPosition ≤ v'.objectMap.minValidPosition := by
  induction e', hle using Nat.le_induction generalizing v' with
  | base =>
    rw [hv.unique hv']
    exact ⟨le_refl _, le_refl _⟩
  | succ e' hle ih =>
    have hlen := hv'.le_length
    obtain ⟨w, hw⟩ : ∃ w, ViewAt vs e' w := exists_viewAt (by have := hv.1; omega) (by omega)
    have ⟨h₁, h₂⟩ := ih hw
    have hs := h.step e' w v' hw hv'
    exact ⟨le_trans h₁ hs.stripes, le_trans h₂ hs.minValid⟩

/-- **Mapping stability**: a mapped position keeps its object in every later view. -/
theorem HistoryOk.map_stable (h : HistoryOk vs) {e' p : Nat} {oid : String} {last : Bool}
    (hv : ViewAt vs e v) (hv' : ViewAt vs e' v') (hle : e ≤ e')
    (hm : v.objectMap.map p = .ok (some oid, last)) :
    ∃ last', v'.objectMap.map p = .ok (some oid, last') := by
  obtain ⟨L, hL⟩ := h.layout_at
  obtain ⟨hp, hsize, hoid, -⟩ := (hL e v hv).map_some hm
  have hn := (h.mono hv hv' hle).1
  have hp' : p < v'.objectMap.nextStripeId * L.size :=
    lt_of_lt_of_le hp (Nat.mul_le_mul_right _ hn)
  rcases (hL e' v' hv').map_cases p with ⟨hge, -⟩ | ⟨-, heq, -⟩ | ⟨-, -, hmap⟩
  · omega
  · omega
  · exact ⟨_, by rw [hmap, hoid]⟩

/-- A configuration with an older epoch than a view's own is copied from the view before. -/
theorem HistoryOk.config_mono (h : HistoryOk vs) {e' : Nat} {c : SequencerConfig}
    (hv : ViewAt vs e v) (hv' : ViewAt vs e' v') (hle : e ≤ e') (hc : v.seqConfig = some c) :
    ∃ c', v'.seqConfig = some c' ∧ c.epoch ≤ c'.epoch ∧ (c'.epoch ≤ e → c' = c) := by
  induction e', hle using Nat.le_induction generalizing v' with
  | base =>
    rw [← hv.unique hv']
    exact ⟨c, hc, le_refl _, fun _ => rfl⟩
  | succ e' hle ih =>
    have hlen := hv'.le_length
    obtain ⟨w, hw⟩ : ∃ w, ViewAt vs e' w := exists_viewAt (by have := hv.1; omega) (by omega)
    obtain ⟨c', hc', hcc, huniq⟩ := ih hw
    rcases (h.step e' w v' hw hv').config with heq | ⟨d, hd, hde⟩
    · exact ⟨c', heq.trans hc', hcc, huniq⟩
    · have hce := (h.config e v c hv hc).2
      exact ⟨d, hd, by omega, fun hle' => by omega⟩

/-- A configuration is that of the view of its own epoch. -/
theorem HistoryOk.config_origin (h : HistoryOk vs) {c : SequencerConfig} (hv : ViewAt vs e v)
    (hc : v.seqConfig = some c) : ∃ v₀, ViewAt vs c.epoch v₀ ∧ v₀.seqConfig = some c := by
  induction e generalizing v with
  | zero => exact absurd hv.1 (by omega)
  | succ e ih =>
    obtain ⟨hpos, hle⟩ := h.config _ v c hv hc
    rcases Nat.lt_or_ge c.epoch (e + 1) with hlt | hge
    · -- an older configuration was copied
      have hlen := hv.le_length
      obtain ⟨w, hw⟩ : ∃ w, ViewAt vs e w := exists_viewAt (by omega) (by omega)
      refine ih hw ?_
      rcases (h.step e w v hw hv).config with heq | ⟨d, hd, hde⟩
      · exact heq.symm.trans hc
      · rw [hd] at hc
        cases hc
        omega
    · have heq : c.epoch = e + 1 := by omega
      rw [heq]
      exact ⟨v, hv, hc⟩

/-- Two configurations with one epoch are the same. -/
theorem HistoryOk.config_unique (h : HistoryOk vs) {e' : Nat} {c c' : SequencerConfig}
    (hv : ViewAt vs e v) (hc : v.seqConfig = some c) (hv' : ViewAt vs e' v')
    (hc' : v'.seqConfig = some c') (he : c.epoch = c'.epoch) : c = c' := by
  obtain ⟨w, hw, hwc⟩ := h.config_origin hv hc
  obtain ⟨w', hw', hwc'⟩ := h.config_origin hv' hc'
  rw [← he] at hw'
  rw [hw.unique hw', hwc'] at hwc
  cases hwc
  rfl

/-- Appending the view a client built from the latest one. -/
theorem HistoryOk.snoc (h : HistoryOk vs) (hv : ViewAt vs vs.length v)
    (hn : NextView vs.length v v') : HistoryOk (vs ++ [v'.stored]) ∧
      View.decode v'.encode = .ok v'.stored := by
  obtain ⟨L, hL⟩ := h.layout
  have hvL := hL v hv.mem
  obtain ⟨hmin, hstripes, L', hL', hsame⟩ := hn.objectMap hvL
  have hconf := hn.config
  have hstor : v'.Storable := by
    refine ⟨⟨L', _, hL'⟩, ?_⟩
    intro c hc
    rcases hconf with heq | ⟨d, hd, hde, hdt⟩
    · exact (h.storable v hv.mem).1.config c (heq ▸ hc)
    · rw [hd] at hc
      cases hc
      exact ⟨by omega, hdt⟩
  -- a copied configuration already is as it was stored
  have hconf' : v'.stored.seqConfig = v.seqConfig ∨
      ∃ c, v'.stored.seqConfig = some c ∧ c.epoch = vs.length + 1 := by
    rcases hconf with heq | ⟨c, hc, hce, -⟩
    · refine Or.inl ?_
      have hself := congrArg View.seqConfig (h.storable v hv.mem).2
      simp only [View.stored, heq] at hself ⊢
      exact hself
    · exact Or.inr ⟨{ c with token := cStr c.token }, by simp [View.stored, hc], hce⟩
  have hstep : StepOk vs.length v v'.stored := ⟨hstripes, hmin, hconf'⟩
  refine ⟨⟨by simp, ?_, ?_, ?_, ?_⟩, View.decode_encode hstor.config⟩
  · -- all older maps are empty when the layout changes
    by_cases hpos : 0 < v.objectMap.nextStripeId
    · refine ⟨L, fun w hw => ?_⟩
      rcases List.mem_append.mp hw with hw | hw
      · exact hL w hw
      · rw [List.mem_singleton.mp hw]
        exact hsame hpos ▸ hL'
    · refine ⟨L', fun w hw => ?_⟩
      rcases List.mem_append.mp hw with hw | hw
      · obtain ⟨e, hwe⟩ := viewAt_of_mem hw
        have hle := (h.mono hwe hv hwe.le_length).1
        have h0 : w.objectMap.nextStripeId = 0 := by omega
        have := hL w hw
        rw [h0] at this ⊢
        exact this.of_zero L'
      · rw [List.mem_singleton.mp hw]
        exact hL'
  · intro w hw
    rcases List.mem_append.mp hw with hw | hw
    · exact h.storable w hw
    · rw [List.mem_singleton.mp hw]
      exact ⟨hstor.stored, View.stored_stored _⟩
  · intro e w w' hw hw'
    rcases viewAt_append hw' with hw' | ⟨he, rfl⟩
    · rcases viewAt_append hw with hw | ⟨he', -⟩
      · exact h.step e w w' hw hw'
      · have := hw'.le_length
        omega
    · have he' : e = vs.length := by omega
      subst he'
      rcases viewAt_append hw with hw | ⟨he', -⟩
      · rw [hw.unique hv]
        exact hstep
      · omega
  · intro e w c hw hc
    rcases viewAt_append hw with hw | ⟨he, rfl⟩
    · exact h.config e w c hw hc
    · subst he
      rcases hconf' with heq | ⟨d, hd, hde⟩
      · have := h.config _ v c hv (heq ▸ hc)
        exact ⟨this.1, by omega⟩
      · rw [hd] at hc
        cases hc
        omega

end

end ZLog
