import ZLog.System.Effects

/-!
# The steps of the threads

A move is safe when its backend call is one of those in `CallOk` and the control state it leads
to satisfies its assertion.  This module proves that the threads that manage views make only
safe moves: waiting, expanding, trimming the view, proposing a sequencer, the background
threads, the refresh thread and the opening of a log.

## Main results

- `proposeSequencer_safe`: the scan of `propose_sequencer` computes a good seed.
- `openEntry_safe`, `refreshEntry_safe`, `expanderEntry_safe`, `stripeInitEntry_safe`
-/

namespace ZLog

variable (u : Uuid) (name : String)

/-! ## Safe moves -/

/-- The move makes an allowed call, or leaves the memory well formed, and leads to a control
    state of which `Q` holds in the state after the call. -/
def Safe {σ : Type} (b : Store) (Q : Store → σ → Prop) : Option (Move σ) → Prop
  | some (.backend call next) => CallOk u name b call ∧ Q (b.exec call).2 (next (b.exec call).1)
  | some (.memory sh next) => SharedOk u b sh ∧ Q b next
  | some .abort => True
  | none => True

/-- `P` of a control state, `R` of a return value. -/
def Next.All {σ ρ : Type} (P : σ → Prop) (R : ρ → Prop) : Next σ ρ → Prop
  | .goto s => P s
  | .ret r => R r

variable {u name} {b : Store} {sh : Shared} {σ τ ρ : Type}

/-- A step that is safe stays so under a wrapper of the control states. -/
theorem Safe.map {Q : Store → τ → Prop} {f : σ → τ} {m : Option (Move σ)}
    (h : Safe u name b (fun b' s => Q b' (f s)) m) : Safe u name b Q (m.map (Move.map f)) := by
  cases m with
  | none => trivial
  | some m =>
    cases m with
    | backend call next => exact h
    | memory sh next => exact h
    | abort => trivial

/-- What a safe step ensures may be weakened. -/
theorem Safe.imp {P Q : Store → σ → Prop} {m : Option (Move σ)} (h : Safe u name b P m)
    (himp : ∀ b' s, P b' s → Q b' s) : Safe u name b Q m := by
  cases m with
  | none => trivial
  | some m =>
    cases m with
    | backend call next => exact ⟨h.1, himp _ _ h.2⟩
    | memory sh next => exact ⟨h.1, himp _ _ h.2⟩
    | abort => trivial

/-- A safe move of a called function is a safe move of its caller. -/
theorem Safe.inside {Q : Store → τ → Prop} {P : Store → σ → Prop} {R : Store → ρ → Prop}
    {goto : σ → τ} {ret : ρ → τ} {m : Option (Move (Next σ ρ))}
    (h : Safe u name b (fun b' n => n.All (P b') (R b')) m)
    (hgoto : ∀ b' s, P b' s → Q b' (goto s)) (hret : ∀ b' r, R b' r → Q b' (ret r)) :
    Safe u name b Q (Move.inside goto ret m) := by
  refine Safe.map ?_
  have hnext : ∀ b' (n : Next σ ρ), n.All (P b') (R b') → Q b' (n.elim goto ret) := by
    intro b' n hn
    cases n with
    | goto s => exact hgoto b' s hn
    | ret r => exact hret b' r hn
  exact h.imp hnext

/-- A step that reads the current view: it holds a stored view, or none yet. -/
theorem Safe.withView {Q : Store → σ → Prop} {k : VersionedView → Move σ}
    (hsh : SharedOk u b sh) (h : ∀ v, Held u b v → Safe u name b Q (some (k v))) :
    Safe u name b Q (sh.withView k) := by
  unfold Shared.withView
  split
  · trivial
  · next v hv => exact h v (hsh.view v hv)

/-- The same where the current view itself matters. -/
theorem Safe.atView {Q : Store → σ → Prop} {k : VersionedView → Move σ}
    (h : ∀ v, sh.view = some v → Safe u name b Q (some (k v))) :
    Safe u name b Q (sh.withView k) := by
  unfold Shared.withView
  split
  · trivial
  · next v hv => exact h v hv

/-- Only the handles and the current view count. -/
theorem SharedOk.congr {sh' : Shared} (h : SharedOk u b sh) (hb : sh'.backend = sh.backend)
    (hv : sh'.view = sh.view) : SharedOk u b sh' :=
  ⟨fun lb hlb => h.backend lb (hb ▸ hlb), fun v hv' => h.view v (hv ▸ hv')⟩

/-! ## Waiting -/

/-- A waiting thread makes no backend call, and keeps the epoch that it waits for. -/
theorem waitForNewerView_keeps {P : WaitPc → Prop} {pc : WaitPc} (hsh : SharedOk u b sh) (h : P pc)
    (hjoin : ∀ epoch id, P (.enter epoch) → P (.blocked ⟨id, epoch⟩)) :
    Safe u name b (fun b' n => n.All (fun pc => b' = b ∧ P pc) (fun _ => b' = b))
      (waitForNewerView sh pc) := by
  cases pc with
  | enter epoch =>
    simp only [waitForNewerView]
    split
    · exact ⟨hsh, rfl⟩
    · exact ⟨hsh.congr rfl rfl, rfl, hjoin _ _ h⟩
  | blocked waiter =>
    simp only [waitForNewerView]
    split
    · trivial
    · exact ⟨hsh, rfl⟩

/-- Waiting changes nothing in the store. -/
theorem waitForNewerView_safe {pc : WaitPc} (hsh : SharedOk u b sh) (h : WaitOk u b pc) :
    Safe u name b (fun b' n => n.All (fun pc => b' = b ∧ WaitOk u b pc) (fun _ => b' = b))
      (waitForNewerView sh pc) :=
  waitForNewerView_keeps hsh h fun _ _ h => h

/-- The same, for a thread that waits behind its own proposal. -/
theorem waitForNewerView_newer {pc : WaitPc} (hsh : SharedOk u b sh) (h : NewerOk u b pc) :
    Safe u name b (fun b' n => n.All (fun pc => b' = b ∧ NewerOk u b pc) (fun _ => b' = b))
      (waitForNewerView sh pc) :=
  waitForNewerView_keeps hsh h fun _ _ h => h

/-! ## Proposals -/

/-- What a thread learns from the answer to a proposal. -/
theorem LogOk.exec_proposeView (h : LogOk u name b) {curr : VersionedView} {v' : View}
    (hc : Held u b curr) (hn : NextView curr.epoch curr.view v') :
    ∃ r b', b.exec (.proposeView u.hoid (curr.epoch + 1) v'.encode) = (r, b') ∧
      (r = .ok () ∨ r = .error .espipe) ∧ SameContent b b' ∧ curr.epoch < latestEpoch u b' := by
  have hsame : SameContent b (b.proposeView u.hoid (curr.epoch + 1) v'.encode).2 :=
    fun q => untouched_congr (h.logAt_proposeView hc hn) q
  rcases h.proposeView hc hn with ⟨hlt, hp⟩ | ⟨heq, b', hp, hviews, -⟩ <;> rw [hp] at hsame
  · exact ⟨_, _, hp, Or.inr rfl, hsame, hlt⟩
  · refine ⟨_, _, hp, Or.inl rfl, hsame, ?_⟩
    have hlen : latestEpoch u b' = latestEpoch u b + 1 := by
      unfold latestEpoch
      rw [hviews]
      simp
    omega

/-- The backend handle of a client of this log. -/
def HandleOk (u : Uuid) (lb : LogBackend) : Prop :=
  lb.hoid = u.hoid ∧ lb.pfx = u.pfx ∧ cStr lb.token ≠ ""

/-- The names of a client's objects are those of the log. -/
theorem HandleOk.oid {lb : LogBackend} (h : HandleOk u lb) (s i : Nat) :
    lb.oid (Stripe.oidAt s i) = dataOid u s i := by
  rw [LogBackend.oid, h.2.1]
  rfl

/-- A return value other than an error, or the shutdown of the view manager. -/
def ExpandRet (sh : Shared) (r : Ret Unit) : Prop :=
  r = .ok () ∨ (r = .error .eshutdown ∧ sh.managerShutdown = true)

/-- `try_expand_view` is safe at every control state. -/
theorem tryExpandView_safe {options : Options} {lb : LogBackend} {position : Nat} {pc : ExpandPc}
    (h : LogOk u name b) (hsh : SharedOk u b sh) (hlb : HandleOk u lb) (hpc : ExpandOk u b pc) :
    Safe u name b (fun b' n => n.All (fun pc => SameContent b b' ∧ ExpandOk u b' pc)
      (fun r => SameContent b b' ∧ ExpandRet sh r)) (tryExpandView options lb position sh pc) := by
  have hsame := SameContent.refl b
  cases pc with
  | start retries =>
    refine Safe.withView hsh fun curr hc => ?_
    -- the map has no room to grow, the position is mapped already, or a view is proposed
    split
    · trivial
    · exact ⟨hsh, hsame, Or.inl rfl⟩
    · next newView hnew => exact ⟨hsh, hsame, hc, _, _, hnew⟩
  | propose retries curr newView =>
    obtain ⟨hc, p, o, hnew⟩ := hpc
    have hn : NextView curr.epoch curr.view newView := .expand p o hnew
    obtain ⟨r, b', hexec, hr, hsame', hlt⟩ := h.exec_proposeView hc hn
    refine ⟨hlb.1 ▸ CallOk.proposeView hc hn, ?_⟩
    rw [hlb.1, hexec]
    -- accepted or beaten, there is a newer view now to wait for
    rcases hr with rfl | rfl
    · exact ⟨hsame', Or.inl hlt⟩
    · exact ⟨hsame', Or.inl hlt⟩
  | waitNew wait =>
    refine Safe.inside (waitForNewerView_safe hsh hpc) ?_ ?_
    · rintro b' s ⟨rfl, hs⟩
      exact ⟨hsame, hs⟩
    · rintro b' r rfl
      -- what comes next depends on the option, not on the store
      show Next.All _ _ (if options.initStripeOnCreate then _ else _)
      split
      · exact ⟨hsame, trivial⟩
      · exact ⟨hsame, Or.inl rfl⟩
  | initStripe => exact ⟨hsh.congr rfl rfl, hsame, Or.inl rfl⟩
  | waitStale retries wait =>
    refine Safe.inside (waitForNewerView_safe hsh hpc) ?_ ?_
    · rintro b' s ⟨rfl, hs⟩
      exact ⟨hsame, hs⟩
    · rintro b' r rfl
      show Next.All _ _ (if retries - 1 = 0 then _ else _)
      split
      · exact ⟨hsame, Or.inl rfl⟩
      · exact ⟨hsame, trivial⟩
  | checkShutdown retries =>
    refine ⟨hsh, ?_⟩
    by_cases hm : sh.managerShutdown = true
    · rw [if_pos hm]
      exact ⟨hsame, Or.inr ⟨rfl, hm⟩⟩
    · rw [if_neg hm]
      exact ⟨hsame, trivial⟩

/-- `advance_min_valid_position` is safe at every control state. -/
theorem advanceMinValidPosition_safe {lb : LogBackend} {position : Nat} {pc : AdvancePc}
    (h : LogOk u name b) (hsh : SharedOk u b sh) (hlb : HandleOk u lb) (hpc : AdvanceOk u b pc) :
    Safe u name b (fun b' n => n.All (fun pc => SameContent b b' ∧ AdvanceOk u b' pc)
      (fun r => SameContent b b' ∧ r = .ok ())) (advanceMinValidPosition lb position sh pc) := by
  have hsame := SameContent.refl b
  cases pc with
  | start =>
    refine Safe.withView hsh fun curr hc => ?_
    split
    · exact ⟨hsh, hsame, rfl⟩
    · next newView hnew => exact ⟨hsh, hsame, hc, _, hnew⟩
  | propose curr newView =>
    obtain ⟨hc, p, hnew⟩ := hpc
    have hn : NextView curr.epoch curr.view newView := .advance p hnew
    obtain ⟨r, b', hexec, hr, hsame', hlt⟩ := h.exec_proposeView hc hn
    refine ⟨hlb.1 ▸ CallOk.proposeView hc hn, ?_⟩
    rw [hlb.1, hexec]
    -- accepted or beaten, there is a newer view now to wait for
    rcases hr with rfl | rfl
    · exact ⟨hsame', Or.inl hlt⟩
    · exact ⟨hsame', Or.inl hlt⟩
  | wait wait =>
    refine Safe.inside (waitForNewerView_safe hsh hpc) ?_ ?_
    · rintro b' s ⟨rfl, hs⟩
      exact ⟨hsame, hs⟩
    · rintro b' r rfl
      exact ⟨hsame, rfl⟩

/-! ## Proposing a sequencer -/

/-- The stripe of a mapped position. -/
theorem LogOk.stripe_of_map (h : LogOk u name b) {curr : VersionedView} {p s i : Nat} {last : Bool}
    (hc : Held u b curr) (hm : curr.objectMap.map p = .ok (some (Stripe.oidAt s i), last)) :
    ∃ stripe, curr.objectMap.stripeById s = .ok stripe ∧ i < stripe.width ∧
      stripe.minPosition ≤ p ∧ p ≤ stripe.maxPosition := by
  obtain ⟨L, hL⟩ := h.history.layout
  have hlay := hL curr.view hc.mem
  obtain ⟨hp, -, hoid, -⟩ := hlay.map_some hm
  obtain ⟨hs, hi⟩ := oidAt_injective hoid
  have hlt : s < curr.view.objectMap.nextStripeId := by
    rw [hs]
    exact (Nat.div_lt_iff_lt_mul L.size_pos).mpr hp
  obtain ⟨stripe, hok, -, hw, hlo, hhi⟩ := hlay.stripeById hlt
  have hbounds := L.div_size_eq_iff.mp hs.symm
  exact ⟨stripe, hok, by rw [hw, hi]; exact Nat.mod_lt _ L.width_pos, by rw [hlo]; exact hbounds.1,
    by rw [hhi]; exact Nat.le_pred_of_lt hbounds.2⟩

/-- The stripes of two stored views agree. -/
theorem LogOk.stripe_unique (h : LogOk u name b) {v w : View} {t : Nat} {s s' : Stripe}
    (hv : v ∈ viewsOf u b) (hw : w ∈ viewsOf u b) (hs : v.objectMap.stripeById t = .ok s)
    (hs' : w.objectMap.stripeById t = .ok s') :
    s.minPosition = s'.minPosition ∧ s.width = s'.width := by
  obtain ⟨L, hL⟩ := h.history.layout
  obtain ⟨-, -, hw₁, hlo₁, -⟩ := (hL v hv).stripeById_ok hs
  obtain ⟨-, -, hw₂, hlo₂, -⟩ := (hL w hw).stripeById_ok hs'
  exact ⟨hlo₁.trans hlo₂.symm, hw₁.trans hw₂.symm⟩

/-- `MaxPos` is at least every position that is written or invalid. -/
theorem ObjectOk.le_maxPos {vs : List View} {s i : Nat} {o : LogObject} (h : ObjectOk vs s i o)
    {p : Nat} (hp : o.slot p ≠ .unwritten) : ∃ x, o.maxPos = some x ∧ p ≤ x := by
  -- a position is in use by an entry, or under the limit
  have hmem : p ∈ o.entries ∨ ∃ l, o.trimLimit = some l ∧ p ≤ l := by
    by_contra hnot
    obtain ⟨hne, hnl⟩ := not_or.mp hnot
    refine hp (LogObject.slot_eq_unwritten_iff.mpr ⟨?_, hne⟩)
    unfold LogObject.belowTrimLimit
    cases hl : o.trimLimit with
    | none => rfl
    | some l => exact decide_eq_false fun hle => hnl ⟨l, hl, hle⟩
  unfold LogObject.maxPos
  -- both are counted by `MaxPos`
  rcases hmem with hmem | ⟨l, hl, hle⟩
  · have hbound := h.bounded p hmem
    have hne : o.entries.keys.isEmpty = false := by
      rw [Bool.eq_false_iff, ne_eq, List.isEmpty_iff]
      exact List.ne_nil_of_mem (AList.mem_keys.mp hmem)
    rw [hne]
    simp only [Bool.false_eq_true, if_false]
    cases o.trimLimit with
    | none => exact ⟨_, rfl, hbound⟩
    | some l => exact ⟨_, rfl, le_trans hbound (le_max_left _ _)⟩
  · rw [hl]
    split
    · exact ⟨l, rfl, hle⟩
    · exact ⟨_, rfl, le_trans hle (le_max_right _ _)⟩

/-- An entry is there, so the position is in use. -/
theorem LogObject.slot_ne_unwritten_of_mem {o : LogObject} {p : Nat} (h : p ∈ o.entries) :
    o.slot p ≠ .unwritten := by
  intro hs
  exact (LogObject.slot_eq_unwritten_iff.mp hs).2 h

/-- `MaxPos` lies in the stripe of the object or after it. -/
theorem LogOk.minPosition_le_maxPos (h : LogOk u name b) {curr : VersionedView} {t i x : Nat}
    {stripe : Stripe} {o : LogObject} (hc : Held u b curr)
    (hs : curr.objectMap.stripeById t = .ok stripe) (ho : objectAt u b t i = some o)
    (hx : o.maxPos = some x) : stripe.minPosition ≤ x := by
  have hobj := h.object t i o ho
  -- some entry exists: it is mapped to this object, so it lies in the stripe
  by_cases hempty : ∃ p, p ∈ o.entries
  · obtain ⟨p, hp⟩ := hempty
    obtain ⟨y, hy, hpy⟩ := hobj.le_maxPos (LogObject.slot_ne_unwritten_of_mem hp)
    rw [hx] at hy
    cases hy
    obtain ⟨w, hw, last, hm⟩ := hobj.mapped p hp
    obtain ⟨e, hwe⟩ := viewAt_of_mem hw
    obtain ⟨stripe', hs', -, hlo, -⟩ := LogOk.stripe_of_map h (show Held u b ⟨e, w, none⟩ from hwe) hm
    have heq := (h.stripe_unique hc.mem hw hs hs').1
    omega
  · -- only the limit is set: it came from a trim of the stripe
    have hnil : o.entries.keys.isEmpty = true := by
      rw [List.isEmpty_iff, List.eq_nil_iff_forall_not_mem]
      exact fun p hp => hempty ⟨p, AList.mem_keys.mpr hp⟩
    unfold LogObject.maxPos at hx
    rw [hnil] at hx
    obtain ⟨w, hw, stripe', hs', hle⟩ := hobj.limit x hx
    have heq := (h.stripe_unique hc.mem hw hs hs').1
    omega

/-- A seed is good when the positions from `top` on are sealed and, as long as the view is the
    latest, unwritten. -/
theorem LogOk.seedOk (h : LogOk u name b) {curr : VersionedView} {top : Nat} (hc : Held u b curr)
    (htop : curr.epoch = latestEpoch u b → TopAt u b curr.epoch top)
    (hsealed : ∀ p s i last, top ≤ p →
      curr.objectMap.map p = .ok (some (Stripe.oidAt s i), last) →
      curr.epoch < objectEpoch u b s i)
    (hfree : curr.epoch = latestEpoch u b → ∀ p s i o last,
      curr.objectMap.map p = .ok (some (Stripe.oidAt s i), last) →
      objectAt u b s i = some o → o.slot p ≠ .unwritten → p < top) :
    SeedOk u b curr.epoch curr.view (top % 2 ^ 64) := by
  rcases Nat.lt_or_ge curr.epoch (latestEpoch u b) with hlt | hge
  · -- an old epoch cannot win any more; for the latest one the scan tells what is in use
    exact Or.inl hlt
  · have hlast : curr.epoch = latestEpoch u b := le_antisymm hc.epoch_le hge
    refine Or.inr ⟨top, rfl, htop hlast, fun p s i last hp hm => hsealed p s i last hp hm,
      fun p hp => ?_⟩
    have hat : ViewAt (viewsOf u b) (latestEpoch u b) curr.view := hlast ▸ hc
    -- a mapped position at or above `top` is in a sealed object, and the scan has seen it empty
    rcases h.positionSlot_cases p with hu | ⟨s, i, hm, heq⟩
    · exact hu
    · obtain ⟨last, hmap⟩ := h.mapped_latest hat hm
      obtain ⟨o, ho⟩ := exists_objectAt (Nat.zero_lt_of_lt (hsealed p s i last hp hmap))
      rw [heq, RAMBackend.slotAt_of_logAt ho]
      by_contra hne
      have := hfree hlast p s i o last hmap ho hne
      omega

/-- The scan starts the next stripe, or ends with seed 0. -/
theorem LogOk.scan (h : LogOk u name b) {curr : VersionedView} {k : Nat} (retries : Nat)
    (hc : Held u b curr) (hs : ScannedFrom u b curr k) :
    ProposeOk u b (ProposePc.scan retries curr k) := by
  cases k with
  -- every stripe was empty: the counter starts at 0
  | zero =>
    have hseed : SeedOk u b curr.epoch curr.view (0 % 2 ^ 64) := by
      refine h.seedOk hc (fun _ x hx => absurd hx.symm (Nat.succ_ne_zero x)) ?_ ?_
      · intro p s i last _ hm
        obtain ⟨stripe, hst, hi, -, -⟩ := h.stripe_of_map hc hm
        exact hs.sealed s stripe (Nat.zero_le _) hst i hi
      · intro hlast p s i o last hm ho hp
        obtain ⟨stripe, hst, hi, -, -⟩ := h.stripe_of_map hc hm
        obtain ⟨x, hx, -⟩ := (h.object s i o ho).le_maxPos hp
        rcases hs.empty s stripe (Nat.zero_le _) hst with hlt | hnone
        · omega
        · obtain ⟨y, hy, -⟩ := hnone.le i o x hi ho hx
          cases hy
    exact ⟨hc, hseed⟩
  -- the next stripe is sealed, object by object
  | succ k =>
    simp only [ProposePc.scan]
    cases hst : curr.objectMap.stripeById k with
    | error f => trivial
    | ok stripe =>
      obtain ⟨L, hL⟩ := h.history.layout
      obtain ⟨-, hid, -⟩ := (hL curr.view hc.mem).stripeById_ok hst
      simp only [ProposePc.sealStripe]
      cases hoids : stripe.oids with
      | nil => trivial
      | cons oid rest =>
        refine ⟨hc, ?_, by rw [hid]; exact hs, 0, hoids, fun i hi => absurd hi (by omega)⟩
        unfold StripeOf
        rw [hid]
        exact hst

/-- The end of a stripe: all its objects are sealed and answered. -/
theorem LogOk.endStripe (h : LogOk u name b) {curr : VersionedView} {stripe : Stripe}
    {acc : Option Nat} (retries : Nat) (hc : Held u b curr) (hs : StripeOf curr stripe)
    (hscan : ScannedFrom u b curr (stripe.stripeId + 1))
    (hsealed : SealedUpTo u b curr stripe.stripeId stripe.width)
    (hacc : ∀ x, acc = some x → stripe.minPosition ≤ x)
    (hmax : MaxPosUpTo u b curr stripe.stripeId stripe.width acc) :
    ProposeOk u b (ProposePc.endStripe retries curr stripe acc) := by
  cases acc with
  | none =>
    refine h.scan retries hc ⟨fun t st ht hst => ?_, fun t st ht hst => ?_⟩
    · rcases Nat.eq_or_lt_of_le ht with rfl | hlt
      · rw [Except.ok.inj (hst.symm.trans hs)]
        exact hsealed
      · exact hscan.sealed t st hlt hst
    · rcases Nat.eq_or_lt_of_le ht with rfl | hlt
      · rw [Except.ok.inj (hst.symm.trans hs)]
        exact hmax
      · exact hscan.empty t st hlt hst
  | some x =>
    have hmin := hacc x rfl
    -- a position from the seed on is in this stripe or in a scanned one
    have hstripe : ∀ s st, curr.objectMap.stripeById s = .ok st → x < st.maxPosition + 1 →
        s = stripe.stripeId ∨ stripe.stripeId + 1 ≤ s := by
      intro s st hst hx
      rcases Nat.lt_or_ge s stripe.stripeId with hlt | hge
      · obtain ⟨L, hL⟩ := h.history.layout
        obtain ⟨-, -, -, -, hhi⟩ := (hL curr.view hc.mem).stripeById_ok hst
        obtain ⟨-, -, -, hlo, -⟩ := (hL curr.view hc.mem).stripeById_ok hs
        have hle : (s + 1) * L.size ≤ stripe.stripeId * L.size := Nat.mul_le_mul_right _ hlt
        have hpos : 0 < (s + 1) * L.size := Nat.mul_pos (by omega) L.size_pos
        omega
      · omega
    have hseed : SeedOk u b curr.epoch curr.view ((x + 1) % 2 ^ 64) := by
      refine h.seedOk hc ?_ ?_ ?_
      · intro hlast y hy
        cases hy
        rcases hmax with hlt | hmax
        · omega
        · obtain ⟨i, o, hi, ho, hx⟩ := hmax.attained x rfl
          exact ⟨_, i, o, hsealed i hi, ho, hx⟩
      · intro p s i last hp hm
        obtain ⟨st, hst, hi, -, hpmax⟩ := h.stripe_of_map hc hm
        rcases hstripe s st hst (by omega) with rfl | hlt
        · rw [Except.ok.inj (hst.symm.trans hs)] at hi
          exact hsealed i hi
        · exact hscan.sealed s st hlt hst i hi
      · intro hlast p s i o last hm ho hp
        obtain ⟨st, hst, hi, -, hpmax⟩ := h.stripe_of_map hc hm
        obtain ⟨y, hy, hpy⟩ := (h.object s i o ho).le_maxPos hp
        by_contra hge
        rcases hstripe s st hst (by omega) with rfl | hlt
        · rw [Except.ok.inj (hst.symm.trans hs)] at hi
          rcases hmax with hlt | hmax
          · omega
          · obtain ⟨z, hz, hyz⟩ := hmax.le i o y hi ho hy
            cases hz
            omega
        · rcases hscan.empty s st hlt hst with hlt' | hnone
          · omega
          · obtain ⟨z, hz, -⟩ := hnone.le i o y hi ho hy
            cases hz
    exact ⟨hc, hseed⟩

/-- The object under the cursor of a loop over the objects of a stripe. -/
theorem oids_cursor {stripe : Stripe} {k : Nat} {oid : String} {rest : List String}
    (h : stripe.oids.drop k = oid :: rest) :
    oid = Stripe.oidAt stripe.stripeId k ∧ k < stripe.width ∧ stripe.oids.drop (k + 1) = rest := by
  have hlen : k < stripe.oids.length := by
    by_contra hge
    rw [List.drop_eq_nil_of_le (by omega)] at h
    cases h
  rw [List.drop_eq_getElem_cons hlen, List.cons.injEq] at h
  have hw : k < stripe.width := by
    simpa [Stripe.oids, Stripe.makeOids] using hlen
  refine ⟨?_, hw, h.2⟩
  rw [← h.1]
  simp [Stripe.oids, Stripe.makeOids]

/-- The cursor is at the end. -/
theorem width_le_of_drop_eq_nil {stripe : Stripe} {k : Nat} (h : stripe.oids.drop k = []) :
    stripe.width ≤ k := by
  have := List.drop_eq_nil_iff.mp h
  simpa [Stripe.oids, Stripe.makeOids] using this

/-- What a thread learns from `Seal`: the object has at least the epoch. -/
theorem LogOk.exec_seal (h : LogOk u name b) {s i e : Nat} (h0 : 0 < e) :
    ∃ r b', b.exec (.seal (dataOid u s i) e) = (r, b') ∧ (r = .ok () ∨ r = .error .espipe) ∧
      e ≤ objectEpoch u b' s i ∧ (r = .error .espipe → b' = b) := by
  rcases b.seal_cases (dataOid u s i) e with ⟨hbad, -⟩ | ⟨-, -, -, hs⟩ | ⟨o, ho, hle, hs⟩ |
    ⟨o, -, -, -, hs⟩ | ⟨⟨x, hx⟩, hn, -⟩
  · -- the object name and the epoch are valid
    rcases hbad with hbad | hbad
    · exact absurd hbad (Oid.name_ne_empty _)
    · omega
  · -- the object is created with the epoch
    refine ⟨_, _, hs, Or.inl rfl, ?_, fun hc => by cases hc⟩
    rw [objectEpoch_setLog, if_pos ⟨rfl, rfl⟩]
  · -- the object has a newer epoch already
    refine ⟨_, _, hs, Or.inr rfl, ?_, fun _ => rfl⟩
    rw [objectEpoch_of_objectAt ho]
    exact hle
  · -- the object's epoch is raised
    refine ⟨_, _, hs, Or.inl rfl, ?_, fun hc => by cases hc⟩
    rw [objectEpoch_setLog, if_pos ⟨rfl, rfl⟩]
  · -- an object of the log is never bound to anything else
    exfalso
    rcases h.kinds s i with hk | ⟨o, ho⟩
    · rw [hk] at hx
      cases hx
    · rw [RAMBackend.logAt_eq_some.mpr ho] at hn
      cases hn

/-- The greater of two maxima is at least the first. -/
theorem foldMaxPos_left {acc : Option Nat} {x : Nat} (h : acc = some x) (answer : Option Nat) :
    ∃ y, foldMaxPos acc answer = some y ∧ x ≤ y := by
  subst h
  cases answer with
  | none => exact ⟨x, rfl, le_refl _⟩
  | some z => exact ⟨_, rfl, le_max_left _ _⟩

/-- And at least the second. -/
theorem foldMaxPos_right {acc answer : Option Nat} {x : Nat} (h : answer = some x) :
    ∃ y, foldMaxPos acc answer = some y ∧ x ≤ y := by
  subst h
  cases acc with
  | none => exact ⟨x, rfl, le_refl _⟩
  | some z => exact ⟨_, rfl, le_max_right _ _⟩

/-- The maximum is one of the two. -/
theorem foldMaxPos_eq {acc answer : Option Nat} {x : Nat} (h : foldMaxPos acc answer = some x) :
    acc = some x ∨ answer = some x := by
  cases acc with
  | none => exact Or.inr h
  | some y =>
    cases answer with
    | none => exact Or.inl h
    | some z =>
      cases h
      rcases Nat.le_total y z with hle | hle
      · exact Or.inr (by rw [Nat.max_eq_right hle])
      · exact Or.inl (by rw [Nat.max_eq_left hle])

/-- A lower bound of both is one of the result. -/
theorem le_foldMaxPos {acc answer : Option Nat} {m x : Nat} (hacc : ∀ x, acc = some x → m ≤ x)
    (hans : ∀ x, answer = some x → m ≤ x) (h : foldMaxPos acc answer = some x) : m ≤ x := by
  cases acc with
  | none => exact hans x h
  | some y =>
    obtain ⟨z, hz, hle⟩ := foldMaxPos_left (rfl : some y = some y) answer
    rw [h] at hz
    cases hz
    exact le_trans (hacc y rfl) hle

/-- `propose_sequencer` is safe at every control state. -/
theorem proposeSequencer_safe {lb : LogBackend} {pc : ProposePc} (h : LogOk u name b)
    (hsh : SharedOk u b sh) (hlb : HandleOk u lb) (hpc : ProposeOk u b pc) :
    Safe u name b (fun b' n => n.All (ProposeOk u b') (fun _ => True))
      (proposeSequencer lb sh pc) := by
  have hoid := hlb.oid
  cases pc with
  | start retries =>
    refine Safe.withView hsh fun curr hc => ⟨hsh, ?_⟩
    -- the view has no stripes beyond the first one of the scan
    have hnone : ∀ t stripe, (if curr.objectMap.empty then 0 else curr.objectMap.numStripes) ≤ t →
        curr.objectMap.stripeById t ≠ .ok stripe := by
      intro t stripe ht hst
      obtain ⟨L, hL⟩ := h.history.layout
      have hlay := hL curr.view hc.mem
      have hlt := (hlay.stripeById_ok hst).1
      split at ht
      · next he =>
        have h0 := hlay.empty_iff.mp he
        omega
      · have hnum : curr.objectMap.numStripes = curr.view.objectMap.nextStripeId := rfl
        omega
    exact h.scan retries hc ⟨fun t stripe ht hst => absurd hst (hnone t stripe ht),
      fun t stripe ht hst => absurd hst (hnone t stripe ht)⟩
  | «seal» retries curr stripe oid rest =>
    obtain ⟨hc, hs, hscan, k, hd, hsealed⟩ := hpc
    obtain ⟨rfl, hk, hrest⟩ := oids_cursor hd
    have hcall : CallOk u name b (.seal (dataOid u stripe.stripeId k) (curr.epoch + 1)) :=
      .seal _ _ (by omega) (Nat.succ_le_succ hc.epoch_le)
    have hg := (CallOk.exec h hcall).grows
    obtain ⟨r, b', hexec, hr, hep, -⟩ := h.exec_seal (s := stripe.stripeId) (i := k)
      (show 0 < curr.epoch + 1 by omega)
    refine ⟨by rw [hoid]; exact hcall, ?_⟩
    rw [hexec] at hg
    rw [hoid, hexec]
    -- the seal of object `k` is added to those before
    have hsealed' : SealedUpTo u b' curr stripe.stripeId (k + 1) := by
      intro i hi
      rcases Nat.eq_or_lt_of_le (Nat.le_of_lt_succ hi) with rfl | hlt
      · exact hep
      · exact hsealed.mono hg i hlt
    -- one more object of the stripe to seal, or the stripe is sealed and its maxima are asked
    -- for
    have hnext : (ProposePc.afterSeal retries curr stripe rest).All (ProposeOk u b')
        fun _ => True := by
      unfold ProposePc.afterSeal
      cases rest with
      | cons oid' rest' =>
        exact ⟨hc.mono hg, hs, hscan.mono hg, k + 1, hrest, hsealed'⟩
      | nil =>
        cases hoids : stripe.oids with
        | nil => trivial
        | cons oid' rest' =>
          have hw := width_le_of_drop_eq_nil hrest
          refine ⟨hc.mono hg, hs, hscan.mono hg, fun i hi => hsealed' i (by omega), ?_, 0, hoids,
            ?_⟩
          · intro x hx
            cases hx
          · refine Or.inr ⟨fun i _ _ hi => absurd hi (by omega), fun y hy => ?_⟩
            cases hy
    rcases hr with rfl | rfl
    · exact hnext
    · exact hnext
  | maxPos retries curr stripe oid rest acc =>
    obtain ⟨hc, hs, hscan, hsealed, hacc, k, hd, hmax⟩ := hpc
    obtain ⟨rfl, hk, hrest⟩ := oids_cursor hd
    refine ⟨by rw [hoid]; exact .maxPos _ _, ?_⟩
    -- the object was sealed, so it answers
    obtain ⟨o, ho⟩ := exists_objectAt (Nat.zero_lt_of_lt (hsealed k hk))
    rw [hoid, exec_maxPos ho]
    have hacc' : ∀ x, foldMaxPos acc o.maxPos = some x → stripe.minPosition ≤ x := fun x hx =>
      le_foldMaxPos hacc (fun y hy => h.minPosition_le_maxPos hc hs ho hy) hx
    -- the accumulator covers the objects below `k + 1`
    have hmax' : MaxPosUpTo u b curr stripe.stripeId (k + 1) (foldMaxPos acc o.maxPos) := by
      rcases hmax with hlt | hmax
      · exact Or.inl hlt
      · refine Or.inr ⟨fun i o' x hi ho' hx => ?_, fun y hy => ?_⟩
        · rcases Nat.eq_or_lt_of_le (Nat.le_of_lt_succ hi) with rfl | hlt
          · rw [ho] at ho'
            cases ho'
            exact foldMaxPos_right hx
          · obtain ⟨y, hy, hxy⟩ := hmax.le i o' x hlt ho' hx
            obtain ⟨z, hz, hyz⟩ := foldMaxPos_left hy o.maxPos
            exact ⟨z, hz, le_trans hxy hyz⟩
        · rcases foldMaxPos_eq hy with hold | hnew
          · obtain ⟨i, o', hi, hrest⟩ := hmax.attained y hold
            exact ⟨i, o', Nat.lt_succ_of_lt hi, hrest⟩
          · exact ⟨k, o, Nat.lt_succ_self k, ho, hnew⟩
    -- one more object to ask, or the stripe has been scanned
    cases rest with
    | cons oid' rest' => exact ⟨hc, hs, hscan, hsealed, hacc', k + 1, hrest, hmax'⟩
    | nil =>
      have hw : stripe.width = k + 1 := by
        have := width_le_of_drop_eq_nil hrest
        omega
      exact h.endStripe retries hc hs hscan hsealed hacc' (hw ▸ hmax')
  | propose retries curr seed =>
    obtain ⟨hc, hseed⟩ := hpc
    -- the proposal is the next view, with this client as the sequencer
    have hn : NextView curr.epoch curr.view
        (curr.view.withSequencerConfig ⟨curr.epoch + 1, lb.token, seed⟩) :=
      .sequencer lb.token seed hlb.2.2
    have hcall : CallOk u name b (.proposeView u.hoid (curr.epoch + 1)
        (curr.view.withSequencerConfig ⟨curr.epoch + 1, lb.token, seed⟩).encode) :=
      .proposeView hc hn
    have hg := (CallOk.exec h hcall).grows
    obtain ⟨r, b', hexec, hr, -, hlt⟩ := h.exec_proposeView hc hn
    refine ⟨hlb.1 ▸ hcall, ?_⟩
    rw [hexec] at hg
    rw [hlb.1, hexec]
    rcases hr with rfl | rfl
    · -- accepted: wait for the own view
      exact hlt
    · -- beaten: wait for the other one
      exact ⟨hc.mono hg, hlt⟩
  | waitNew wait =>
    refine Safe.inside (waitForNewerView_newer hsh hpc) ?_ (fun b' r _ => trivial)
    rintro b' s ⟨rfl, hs⟩
    exact hs
  | waitStale retries curr wait =>
    obtain ⟨hc, hw⟩ := hpc
    refine Safe.inside (waitForNewerView_newer hsh hw) ?_ ?_
    · rintro b' s ⟨rfl, hs⟩
      exact ⟨hc, hs⟩
    · rintro b' r rfl
      exact hc
  | check retries curr =>
    refine Safe.withView hsh fun updated _ => ⟨hsh, ?_⟩
    split
    · split
      · trivial
      · trivial
    · trivial
  | crash => trivial

/-! ## Background threads -/

/-- The expander thread is safe at every control state. -/
theorem expanderEntry_safe {options : Options} {lb : LogBackend} {pc : ExpanderPc}
    (h : LogOk u name b) (hsh : SharedOk u b sh) (hlb : HandleOk u lb) (hpc : ExpanderOk u b pc) :
    Safe u name b (ExpanderOk u) (expanderEntry options lb sh pc) := by
  cases pc with
  | idle =>
    simp only [expanderEntry]
    split
    · trivial
    · split
      · -- on shutdown the thread leaves its loop
        exact ⟨hsh.congr rfl rfl, trivial⟩
      · split
        · trivial
        · exact ⟨hsh, trivial⟩
  -- the position is mapped by now, or an expansion starts
  | check position =>
    refine Safe.withView hsh fun v _ => ?_
    split
    · trivial
    · exact ⟨hsh, trivial⟩
    · exact ⟨hsh, trivial⟩
  | expand position pc =>
    exact Safe.inside (tryExpandView_safe h hsh hlb hpc) (fun b' s hs => hs.2)
      (fun b' r _ => trivial)
  | clear position =>
    simp only [expanderEntry]
    split
    · trivial
    · -- a request that came meanwhile keeps the expander going
      split
      · exact ⟨hsh, trivial⟩
      · exact ⟨hsh.congr rfl rfl, trivial⟩
  | exited => trivial

/-- The objects of a stripe are sealed one after the other. -/
theorem stripeInitOk_sealAll {epoch : Nat} {oids : List String} (h0 : 0 < epoch)
    (hle : epoch ≤ latestEpoch u b) (hoids : ∀ x ∈ oids, ∃ s i, x = Stripe.oidAt s i) :
    StripeInitOk u b (.sealAll epoch oids) := by
  cases oids with
  | nil => trivial
  | cons oid rest => exact ⟨h0, hle, hoids⟩

/-- The names of a stripe's objects. -/
theorem Stripe.mem_oids {stripe : Stripe} {oid : String} (h : oid ∈ stripe.oids) :
    ∃ s i, oid = Stripe.oidAt s i := by
  obtain ⟨i, -, rfl⟩ := List.mem_map.mp h
  exact ⟨_, i, rfl⟩

/-- The thread that initialises stripes is safe at every control state. -/
theorem stripeInitEntry_safe {lb : LogBackend} {pc : StripeInitPc} (h : LogOk u name b)
    (hsh : SharedOk u b sh) (hlb : HandleOk u lb) (hpc : StripeInitOk u b pc) :
    Safe u name b (StripeInitOk u) (stripeInitEntry lb sh pc) := by
  cases pc with
  | idle =>
    simp only [stripeInitEntry]
    split
    · trivial
    · split
      · -- on shutdown the thread leaves its loop
        exact ⟨hsh.congr rfl rfl, trivial⟩
      · split
        · trivial
        · exact ⟨hsh.congr rfl rfl, trivial⟩
  -- the first stripe of the request is looked up, its objects are sealed for the view's epoch
  | view position =>
    refine Safe.withView hsh fun v hv => ?_
    split
    · trivial
    · exact ⟨hsh, trivial⟩
    · next stripe _ =>
      exact ⟨hsh, stripeInitOk_sealAll hv.1 hv.epoch_le (fun x hx => Stripe.mem_oids hx)⟩
  | «seal» epoch oid rest =>
    obtain ⟨h0, hle, hoids⟩ := hpc
    obtain ⟨s, i, rfl⟩ := hoids oid List.mem_cons_self
    have hcall : CallOk u name b (.seal (dataOid u s i) epoch) :=
      .seal s i h0 (Nat.le_succ_of_le hle)
    have hg := (CallOk.exec h hcall).grows
    refine ⟨by rw [hlb.oid]; exact hcall, ?_⟩
    rw [hlb.oid]
    exact stripeInitOk_sealAll h0 (le_trans hle hg.latest_le)
      (fun x hx => hoids x (List.mem_cons_of_mem _ hx))
  | exited => trivial

/-! ## Installing views -/

/-- Installing a stored view. -/
theorem installMove_safe {lb : LogBackend} {epoch : Nat} {blob : Fbs.View}
    {Q : Store → σ → Prop} {next : σ} (hsh : SharedOk u b sh) (hblob : BlobAt u b epoch blob)
    (hnext : Q b next) : Safe u name b Q (some (installMove lb sh epoch blob next)) := by
  obtain ⟨v, hd, hv⟩ := hblob
  -- whatever the sequencers are, the new view is a stored one
  have hreplace : ∀ seqs seq, SharedOk u b { sh with seqs := seqs, view := some ⟨epoch, v, seq⟩ } := by
    intro seqs seq
    refine ⟨hsh.backend, fun w hw => ?_⟩
    cases hw
    exact hv
  unfold installMove
  rw [hd]
  dsimp only
  split
  · trivial
  · next sh' hi =>
    refine ⟨?_, hnext⟩
    unfold installView at hi
    simp only at hi
    -- the first view that is installed
    split at hi
    · split at hi
      · cases hi
      · cases hi
        exact hreplace _ _
    · -- an older view than the one held is dropped
      split at hi
      · cases hi
      · split at hi
        · cases hi
          exact hsh
        · split at hi
          · cases hi
          · cases hi
            exact hreplace _ _

/-- What `get_latest_view` returns. -/
theorem LogOk.exec_readViews (h : LogOk u name b) :
    ∃ blob, b.exec (.readViews u.hoid 0 1) = (.ok [(latestEpoch u b, blob)], b) ∧
      BlobAt u b (latestEpoch u b) blob := by
  obtain ⟨blob, v, hr, hd, hv⟩ := h.readLatest
  exact ⟨blob, congrArg (·, b) hr, v, hd, hv⟩

/-- The refresh thread is safe at every control state. -/
theorem refreshEntry_safe {lb : LogBackend} {pc : RefreshPc} (h : LogOk u name b)
    (hsh : SharedOk u b sh) (hlb : HandleOk u lb) (hpc : RefreshOk u b pc) :
    Safe u name b (RefreshOk u) (refreshEntry lb sh pc) := by
  cases pc with
  | idle =>
    simp only [refreshEntry]
    split
    · trivial
    · split
      · -- on shutdown the thread leaves its loop
        exact ⟨hsh.congr rfl rfl, trivial⟩
      · exact ⟨hsh, trivial⟩
  | fetch =>
    obtain ⟨blob, hexec, hblob⟩ := h.exec_readViews
    refine ⟨hlb.1 ▸ CallOk.readViews 0 1, ?_⟩
    rw [hlb.1, hexec]
    exact hblob
  | install epoch blob => exact installMove_safe hsh hpc trivial
  -- waiters are woken up to the epoch of the view that is held
  | readView =>
    simp only [refreshEntry]
    split
    · exact ⟨hsh, trivial⟩
    · exact ⟨hsh, trivial⟩
  | mark epoch => exact ⟨hsh.congr rfl rfl, trivial⟩
  | exited => trivial

/-! ## Opening -/

/-- The token is not empty, not even as a C string. -/
theorem cStr_makeToken_ne_empty (name hoid host : String) (id : Nat) :
    cStr (makeToken name hoid host id) ≠ "" := by
  intro hempty
  have hl := congrArg String.toList hempty
  unfold cStr makeToken at hl
  simp at hl

/-- `build_log_impl` is safe at every control state. -/
theorem openEntry_safe {host : String} {options : Options} {created : Bool} {pc : OpenPc}
    (h : LogOk u name b) (hsh : SharedOk u b sh) (hpc : OpenOk u b pc) :
    Safe u name b (OpenOk u) (openEntry name host options created sh pc) := by
  cases pc with
  | openLog =>
    have hexec : b.exec (.openLog name) = (.ok (u.hoid, u.pfx), b) := congrArg (·, b) h.openLog
    refine ⟨.openLog, ?_⟩
    rw [hexec]
    dsimp only
    -- one call for the handle, another for its id
    split
    · trivial
    · exact ⟨rfl, rfl⟩
  | uniqueId hoid pfx =>
    obtain ⟨rfl, rfl⟩ := hpc
    have hexec : b.exec (.uniqueId u.hoid) =
        (.ok b.nextUniqueId, { b with nextUniqueId := b.nextUniqueId + 1 }) := by
      show b.uniqueId u.hoid = _
      unfold RAMBackend.uniqueId
      rw [if_neg u.hoid_ne_empty]
    refine ⟨.uniqueId, ?_⟩
    rw [hexec]
    exact ⟨rfl, rfl⟩
  | construct hoid pfx id =>
    obtain ⟨rfl, rfl⟩ := hpc
    refine ⟨⟨fun lb hlb => ?_, hsh.view⟩, trivial⟩
    cases hlb
    exact ⟨rfl, rfl, cStr_makeToken_ne_empty _ _ _ _⟩
  | fetch =>
    simp only [openEntry]
    split
    · trivial
    · next lb hlb =>
      obtain ⟨blob, hexec, hblob⟩ := h.exec_readViews
      have hh := (hsh.backend lb hlb).1
      refine ⟨hh ▸ CallOk.readViews 0 1, ?_⟩
      rw [hh, hexec]
      exact hblob
  | install epoch blob =>
    simp only [openEntry]
    split
    · trivial
    · exact installMove_safe hsh hpc trivial
  -- the view names a sequencer, or the client proposes itself
  | checkView =>
    simp only [openEntry]
    split
    · exact ⟨hsh.congr rfl rfl, trivial⟩
    · exact ⟨hsh.congr rfl rfl, trivial⟩
  | propose pc =>
    simp only [openEntry]
    split
    · trivial
    · next lb hlb =>
      refine Safe.inside (proposeSequencer_safe h hsh (hsh.backend lb hlb) hpc)
        (fun b' s hs => hs) ?_
      intro b' r _
      cases r with
      | error e => trivial
      | ok _ =>
        dsimp only
        split
        · trivial
        · trivial
  | checkStripes =>
    refine Safe.withView hsh fun v _ => ⟨hsh, ?_⟩
    split
    · trivial
    · trivial
  | initStripe => exact ⟨hsh.congr rfl rfl, trivial⟩
  | opened => trivial
  | failed => trivial
  | crash => trivial
  | shutdownManager => exact ⟨hsh.congr rfl rfl, trivial⟩
  | shutdownReader => exact ⟨hsh.congr rfl rfl, trivial⟩
  | join =>
    simp only [openEntry]
    split
    · exact ⟨hsh, trivial⟩
    · trivial
  | closed => trivial

end ZLog
