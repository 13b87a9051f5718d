import ZLog.System.Passes

/-!
# The calls of a client that is alone, step by step

In the account of a client that is alone, a call into the view manager is one step.  On its own with
the refresh thread of its client an operation goes through these calls as the threads do: it
proposes a view, joins the waiters, and is woken by a pass of the refresh thread.  Every step of
`TrimToOp::run` in the account is a run of the two threads.

## Main results

- `Solo.Ready.expands`: `try_expand_view`.
- `Solo.Ready.advances`: `advance_min_valid_position`.
- `Solo.Ready.plays`: one step of `TrimToOp::run`.
-/

namespace ZLog

/-- The backend of the scene and its view, whose sequencer the account leaves out. -/
structure Scene.Sees (d : Scene OpPc) (a : Alone) : Prop where
  backend : d.backend = a.backend
  view : ∃ v, d.shared.view = some v ∧ v.epoch = a.view.epoch ∧ v.view = a.view.view

/-- Another stripe fits behind the position: a stripe has fewer than `2 ^ 32` positions. -/
def StripeFits (p : Nat) : Prop := p + 2 ^ 32 ≤ 2 ^ 64

/-- The bound can be computed. -/
instance (p : Nat) : Decidable (StripeFits p) := inferInstanceAs (Decidable (p + 2 ^ 32 ≤ 2 ^ 64))

/-- An expansion adds no stripe that it does not need. -/
theorem ObjectMap.Small.expandMapping_le {m m' : ObjectMap} {options : Options} {p : Nat}
    (hm : m.Small) (hfits : options.Fits) (h : m.expandMapping p options = .ok (some m')) :
    m'.limit ≤ p + 2 ^ 32 := by
  have hsize : m.stepSize options ≤ 2 ^ 32 := by
    unfold ObjectMap.stepSize
    split
    · next b x hx => exact Nat.le_of_lt (hm (b, x) (List.mem_of_getLast? hx))
    · exact Nat.le_of_lt hfits.size_lt
  rcases hm.expandMapping_cases hfits p with ⟨-, hnone⟩ | ⟨-, k, m₁, hk, hext, -, -, hle, hsome⟩
  · rw [h] at hnone
    cases hnone
  · rw [h] at hsome
    cases hsome
    obtain ⟨j, rfl⟩ : ∃ j, k = j + 1 := ⟨k - 1, by omega⟩
    rw [Nat.add_sub_cancel] at hle
    rw [hext.limit, Nat.succ_mul]
    omega

namespace Solo

section

variable {s : Solo} {u : Uuid} {name : String} {d d' : Scene OpPc} {a a' : Alone} {p : Nat}
  {pe : Option Nat} {ret : Ret Unit}

/-! ## Where an operation waits -/

/-- The wait between two tries. -/
theorem waits_wait (hr : s.request ≠ .checkTail) (p : Nat) (pe : Option Nat) :
    s.Waits (.wait p pe) (.start p pe) :=
  ⟨fun _ => rfl, fun _ pc _ => Request.run_wait hr p pe pc⟩

/-- The first view after an accepted expansion. -/
def afterNewView (s : Solo) (p : Nat) (pe : Option Nat) : OpPc :=
  if s.options.initStripeOnCreate then .expand p pe .initStripe else .start p pe

/-- The wait for the own proposal. -/
theorem waits_new (hr : s.request ≠ .checkTail) (p : Nat) (pe : Option Nat) :
    s.Waits (fun pc => .expand p pe (.waitNew pc)) (s.afterNewView p pe) := by
  refine ⟨fun _ => rfl, fun sh pc _ => ?_⟩
  rw [caller_run, Request.run_expand hr]
  simp only [tryExpandView, Move.inside_inside, afterNewView]
  cases s.options.initStripeOnCreate <;> rfl

/-- The first step after a refused expansion. -/
def afterStale (p : Nat) (pe : Option Nat) (retries : Nat) : OpPc :=
  if retries - 1 = 0 then .start p pe else .expand p pe (.checkShutdown (retries - 1))

/-- The wait for the proposal of another client. -/
theorem waits_stale (hr : s.request ≠ .checkTail) (p : Nat) (pe : Option Nat) (retries : Nat) :
    s.Waits (fun pc => .expand p pe (.waitStale retries pc)) (afterStale p pe retries) := by
  refine ⟨fun _ => rfl, fun sh pc _ => ?_⟩
  rw [caller_run, Request.run_expand hr]
  simp only [tryExpandView, Move.inside_inside, afterStale]
  split <;> rfl

/-- The wait while the minimum is advanced. -/
theorem waits_advance {q : Nat} (hr : s.request = .trimTo q) (p : Nat) :
    s.Waits (fun pc => .advance p (.wait pc)) (.start p none) := by
  refine ⟨fun _ => rfl, fun sh pc _ => ?_⟩
  rw [caller_run, hr, Request.run_advance]
  simp only [advanceMinValidPosition, Move.inside_inside]
  rfl

/-! ## What the account knows -/

/-- What the scene sees is a store and a view that `Alone` may start from. -/
theorem Facts.alone (h : s.Facts u name d) (hsees : d.Sees a) : AloneOk u name a := by
  obtain ⟨hb, v, hv, hepoch, hview⟩ := hsees
  have hheld := h.held hv
  unfold Held at hheld
  rw [hepoch, hview, hb] at hheld
  exact ⟨hb ▸ h.log, hheld, hb ▸ h.small⟩

/-- A scene sees its own store and view. -/
theorem sees_view {v : VersionedView} (hv : d.shared.view = some v) :
    d.Sees ⟨d.backend, v⟩ := ⟨rfl, v, hv, rfl, rfl⟩

/-- A scene whose view is the latest one sees what `Alone` has reached. -/
theorem Facts.sees_fresh (h : s.Facts u name d) (hfresh : d.Fresh u) (hb : d.backend = a.backend)
    (ha : AloneOk u name a) (hcur : Current u a) : d.Sees a := by
  obtain ⟨v, hv, hepoch⟩ := hfresh
  rw [hb] at hepoch
  have hheld := h.held hv
  have hheld' := ha.held
  unfold Held at hheld hheld'
  rw [hb, hepoch] at hheld
  rw [hcur] at hheld'
  exact ⟨hb, v, hv, hepoch.trans hcur.symm, hheld.unique hheld'⟩

/-- Waiting for a newer view is `update_current_view` of the account. -/
theorem Ready.updates (h : s.Ready u name d) {K : WaitPc → OpPc} {next : OpPc} {pc : WaitPc}
    (hK : s.Waits K next) (hop : d.pc = K pc) (ha : AloneOk u name a) (hb : d.backend = a.backend)
    (hrun : a.updateCurrentView s.lb = .ok a') :
    s.Can (fun d' => s.Ready u name d' ∧ d'.pc = next ∧ d'.Sees a') d := by
  obtain ⟨a₁, hrun₁, href⟩ := ha.update h.live.facts.handleOk
  rw [hrun] at hrun₁
  cases hrun₁
  refine (h.waited hK hop).imp ?_
  rintro d' ⟨h', hop', hb', hfresh⟩
  refine ⟨h', hop', h'.live.facts.sees_fresh hfresh ?_ href.ok href.current⟩
  rw [hb', hb, href.backend]

/-! ## The calls into the view manager -/

/-- The view that an operation reads has small maps. -/
theorem Facts.smallView (h : s.Facts u name d) {v : VersionedView} (hv : d.shared.view = some v) :
    v.objectMap.Small := h.small v.view (h.held hv).mem

/-- The map that an operation proposes ends within 64 bits. -/
theorem Facts.inRange (h : s.Facts u name d) {v : VersionedView} (hv : d.shared.view = some v)
    (hp : StripeFits p) {newView : View}
    (hexp : v.view.expandMapping p s.options = .ok (some newView)) :
    newView.objectMap.limit ≤ 2 ^ 64 := by
  have hsmall : v.view.objectMap.Small := h.smallView hv
  unfold View.expandMapping at hexp
  split at hexp
  · cases hexp
  · cases hexp
  · next m hm =>
    cases hexp
    exact (hsmall.expandMapping_le h.fits hm).trans hp

/-- The minimum is advanced in the scene as it is alone. -/
theorem Ready.advances {q : Nat} (h : s.Ready u name d) (hr : s.request = .trimTo q)
    (hsees : d.Sees a) (hop : d.pc = .advance p .start)
    (hrun : a.advanceMinValidPosition s.lb (nextPosition p) = .ok (ret, a')) :
    s.Can (fun d' => s.Ready u name d' ∧ d'.pc = .afterAdvance p ret ∧ d'.Sees a') d := by
  obtain ⟨hb, v, hv, hepoch, hview⟩ := hsees
  simp only [Alone.advanceMinValidPosition, ← hview, ← hepoch, ← hb] at hrun
  cases hadv : v.view.advanceMinValidPosition (nextPosition p) with
  | none =>
    rw [hadv] at hrun
    cases hrun
    have hm : s.request.run s.options s.lb d.shared d.pc =
        some (.memory d.shared (.start p none)) := by
      rw [hop, hr, Request.run_advance]
      simp only [advanceMinValidPosition, Shared.withView, hv, hadv]
      rfl
    exact h.access hm fun h₁ => .here ⟨h₁, rfl, hb, v, hv, hepoch, hview⟩
  | some newView =>
    have hm : s.request.run s.options s.lb d.shared d.pc =
        some (.memory d.shared (.advance p (.propose v newView))) := by
      rw [hop, hr, Request.run_advance]
      simp only [advanceMinValidPosition, Shared.withView, hv, hadv]
      rfl
    refine h.access hm fun h₁ => ?_
    rw [hadv] at hrun
    dsimp only at hrun
    cases hprop : d.backend.proposeView s.lb.hoid (v.epoch + 1) newView.encode with
    | mk r b =>
      rw [hprop] at hrun
      -- accepted or not, the operation waits for a view that is newer than its own
      have hwait : s.Ready u name { d with backend := b, pc := .advance p (.wait (.enter v.epoch)) } →
          ∀ a₁, Alone.updateCurrentView s.lb { a with backend := b } = .ok a₁ →
          s.Can (fun d' => s.Ready u name d' ∧ d'.pc = .start p none ∧ d'.Sees a₁)
            { d with backend := b, pc := .advance p (.wait (.enter v.epoch)) } := by
        intro h₂ a₁ hup
        refine h₂.updates (waits_advance hr p) rfl (h₂.live.facts.alone ?_) rfl hup
        exact ⟨rfl, v, hv, hepoch, hview⟩
      have hexec : d.backend.exec (.proposeView s.lb.hoid (v.epoch + 1) newView.encode) = (r, b) :=
        hprop
      refine h₁.call (by rw [hr, Request.run_advance]; rfl) hexec fun h₂ => ?_
      cases r with
      | ok r =>
        dsimp only at hrun
        split at hrun
        · cases hrun
        · next hup =>
          cases hrun
          exact hwait h₂ _ hup
      | error e =>
        cases e with
        | espipe =>
          dsimp only at hrun
          split at hrun
          · cases hrun
          · next hup =>
            cases hrun
            exact hwait h₂ _ hup
        | _ =>
          cases hrun
          exact .here ⟨h₂, rfl, rfl, v, hv, hepoch, hview⟩

/-- The last step of an accepted expansion, which may ask for the objects of the stripe. -/
theorem Ready.afterNewView (h : s.Ready u name d) (hr : s.request ≠ .checkTail)
    (hop : d.pc = s.afterNewView p pe) (hsees : d.Sees a) :
    s.Can (fun d' => s.Ready u name d' ∧ d'.pc = .start p pe ∧ d'.Sees a) d := by
  unfold Solo.afterNewView at hop
  split at hop
  · obtain ⟨hb, v, hv, hepoch, hview⟩ := hsees
    have hm : s.request.run s.options s.lb d.shared d.pc = some (.memory
        { d.shared with stripeInitPos := d.shared.stripeInitPos ++ [p] } (.start p pe)) := by
      rw [hop, Request.run_expand hr]
      rfl
    exact h.access hm fun h₁ => .here ⟨h₁, rfl, hb, v, hv, hepoch, hview⟩
  · exact .here ⟨h, hop, hsees⟩

/-- The shutdown of the view manager does not end the retries of an operation that runs. -/
theorem Ready.retries (h : s.Ready u name d) (hr : s.request ≠ .checkTail) {retries : Nat}
    (hop : d.pc = .expand p pe (.checkShutdown retries)) (hsees : d.Sees a) {P : Scene OpPc → Prop}
    (hP : ∀ d', s.Ready u name d' → d'.pc = .expand p pe (.start retries) → d'.Sees a →
      s.Can P d') : s.Can P d := by
  have hopen : d.shared.managerShutdown = false := by
    refine (h.live.facts.running ?_).1
    rintro ⟨result, hdone⟩
    rw [hop] at hdone
    cases hdone
  have hm : s.request.run s.options s.lb d.shared d.pc =
      some (.memory d.shared (.expand p pe (.start retries))) := by
    rw [hop, Request.run_expand hr]
    simp only [tryExpandView, hopen]
    rfl
  exact h.access hm fun h₁ => hP _ h₁ rfl ⟨hsees.backend, hsees.view⟩

/-- One round of `try_expand_view`. -/
theorem Ready.expands_round (h : s.Ready u name d) (hr : s.request ≠ .checkTail)
    (hp : StripeFits p) {n : Nat} (hsees : d.Sees a) (hop : d.pc = .expand p pe (.start (n + 1)))
    (hrun : a.tryExpandView s.options s.lb p (n + 1) = .ok (ret, a'))
    (hagain : ∀ d₁ a₁, s.Ready u name d₁ → d₁.Sees a₁ → d₁.pc = afterStale p pe (n + 1) →
      a₁.tryExpandView s.options s.lb p n = .ok (ret, a') →
      s.Can (fun d' => s.Ready u name d' ∧ d'.pc = .afterExpand p pe ret ∧ d'.Sees a') d₁) :
    s.Can (fun d' => s.Ready u name d' ∧ d'.pc = .afterExpand p pe ret ∧ d'.Sees a') d := by
  obtain ⟨hb, v, hv, hepoch, hview⟩ := hsees
  simp only [Alone.tryExpandView, ← hview, ← hepoch, ← hb] at hrun
  -- the map cannot grow
  cases hexp : v.view.expandMapping p s.options with
  | error f =>
    rw [hexp] at hrun
    cases hrun
  | ok proposal =>
    rw [hexp] at hrun
    cases proposal with
    -- the position is mapped already
    | none =>
      cases hrun
      have hm : s.request.run s.options s.lb d.shared d.pc =
          some (.memory d.shared (.start p pe)) := by
        rw [hop, Request.run_expand hr]
        simp only [tryExpandView, Shared.withView, hv, hexp]
        rfl
      exact h.access hm fun h₁ => .here ⟨h₁, rfl, hb, v, hv, hepoch, hview⟩
    -- a view is proposed: the call first, then the wait
    | some newView =>
      dsimp only at hrun
      have hm : s.request.run s.options s.lb d.shared d.pc =
          some (.memory d.shared (.expand p pe (.propose (n + 1) v newView))) := by
        rw [hop, Request.run_expand hr]
        simp only [tryExpandView, Shared.withView, hv, hexp]
        rfl
      refine h.access hm (fun h₁ => ?_) rfl (h.live.facts.inRange hv hp hexp)
      cases hprop : d.backend.proposeView s.lb.hoid (v.epoch + 1) newView.encode with
      | mk r b =>
        rw [hprop] at hrun
        have hexec : d.backend.exec (.proposeView s.lb.hoid (v.epoch + 1) newView.encode) =
            (r, b) := hprop
        refine h₁.call (by rw [Request.run_expand hr]; rfl) hexec fun h₂ => ?_
        have hsees : ∀ pc : OpPc,
            Scene.Sees { d with backend := b, pc := pc } { a with backend := b } :=
          fun pc => ⟨rfl, v, hv, hepoch, hview⟩
        -- accepted: the own view is waited for
        cases r with
        | ok r =>
          dsimp only at hrun
          split at hrun
          · cases hrun
          · next hup =>
            cases hrun
            refine (h₂.updates (waits_new hr p pe) rfl (h₂.live.facts.alone (hsees _)) rfl
              hup).bind ?_
            rintro d₁ ⟨hready, hop₁, hsees₁⟩
            exact hready.afterNewView hr hop₁ hsees₁
        | error e =>
          cases e with
          -- beaten: the newer view is waited for, and the next try starts
          | espipe =>
            dsimp only at hrun
            split at hrun
            · cases hrun
            · next hup =>
              refine (h₂.updates (waits_stale hr p pe (n + 1)) rfl (h₂.live.facts.alone (hsees _))
                rfl hup).bind ?_
              rintro d₁ ⟨hready, hop₁, hsees₁⟩
              exact hagain d₁ _ hready hsees₁ hop₁ hrun
          -- another error ends the expansion
          | _ =>
            cases hrun
            exact .here ⟨h₂, rfl, hsees _⟩

/-- An expansion runs in the scene as it does alone. -/
theorem Ready.expands (hr : s.request ≠ .checkTail) (hp : StripeFits p) (n : Nat)
    (h : s.Ready u name d)
    (hsees : d.Sees a) (hop : d.pc = .expand p pe (.start (n + 1)))
    (hrun : a.tryExpandView s.options s.lb p (n + 1) = .ok (ret, a')) :
    s.Can (fun d' => s.Ready u name d' ∧ d'.pc = .afterExpand p pe ret ∧ d'.Sees a') d := by
  -- the induction is on the retries that are left
  induction n generalizing d a with
  | zero =>
    refine h.expands_round hr hp hsees hop hrun fun d₁ a₁ h₁ hsees₁ hop₁ hrun₁ => ?_
    cases hrun₁
    exact .here ⟨h₁, hop₁, hsees₁⟩
  | succ n ih =>
    refine h.expands_round hr hp hsees hop hrun fun d₁ a₁ h₁ hsees₁ hop₁ hrun₁ => ?_
    exact h₁.retries hr hop₁ hsees₁ fun d₂ h₂ hop₂ hsees₂ => ih h₂ hsees₂ hop₂ hrun₁

/-! ## trimTo -/

/-- The operation is where the account of `TrimToOp::run` is. -/
def Plays (p : Nat) (d : Scene OpPc) : TrimToPc → Prop
  | .start => ∃ pe, d.pc = .start p pe
  | .walk v k => ∃ v', d.pc = .walk v' p k ∧ v'.epoch = v.epoch ∧ v'.view = v.view
  | .trim v k objects => ∃ v', d.pc = .trimAll v' p k objects ∧ v'.epoch = v.epoch ∧ v'.view = v.view
  | .done ret => d.pc = .done (finishUnit ret)

/-- A `trimTo` is no `CheckTail`. -/
theorem not_checkTail (hr : s.request = .trimTo p) : s.request ≠ .checkTail := by
  rw [hr]
  rintro ⟨⟩

/-- The top of the outer loop. -/
theorem Ready.plays_start {pc' : TrimToPc} (h : s.Ready u name d) (hr : s.request = .trimTo p)
    (hsees : d.Sees a) (hop : d.pc = .start p pe)
    (hrun : TrimToOp.step s.options s.lb p (.start, a) = .ok (pc', a')) :
    s.Can (fun d' => s.Ready u name d' ∧ d'.Sees a' ∧ Plays p d' pc') d := by
  obtain ⟨hb, v, hv, hepoch, hview⟩ := hsees
  have hobjects : a.view.objectMap = v.objectMap := congrArg View.objectMap hview.symm
  simp only [TrimToOp.step, hobjects] at hrun
  split at hrun
  · -- the minimum is below the position: it is advanced first
    next hmin =>
    have hm : s.request.run s.options s.lb d.shared d.pc =
        some (.memory d.shared (.advance p .start)) := by
      rw [hop, hr]
      simp only [Request.run, trimToOp, Shared.withView, hv]
      rw [if_pos hmin]
    refine h.access hm fun h₁ => ?_
    cases hadv : a.advanceMinValidPosition s.lb (nextPosition p) with
    | error f =>
      rw [hadv] at hrun
      cases hrun
    | ok x =>
      obtain ⟨ret, a₁⟩ := x
      rw [hadv] at hrun
      refine (h₁.advances hr ⟨hb, v, hv, hepoch, hview⟩ rfl hadv).imp ?_
      rintro d₁ ⟨hready, hop₁, hsees₁⟩
      cases ret with
      | ok r =>
        cases hrun
        exact ⟨hready, hsees₁, none, hop₁⟩
      | error e =>
        cases hrun
        exact ⟨hready, hsees₁, hop₁⟩
  · -- it is there already: the walk starts
    next hmin =>
    cases hrun
    have hm : s.request.run s.options s.lb d.shared d.pc =
        some (.memory d.shared (.walk v p 0)) := by
      rw [hop, hr]
      simp only [Request.run, trimToOp, Shared.withView, hv]
      rw [if_neg hmin]
    exact h.access hm fun h₁ => .here ⟨h₁, ⟨hb, v, hv, hepoch, hview⟩, v, rfl, hepoch, hview⟩

/-- The iteration over the stripes. -/
theorem Ready.plays_walk {pc' : TrimToPc} {v v' : VersionedView} {k : Nat} (h : s.Ready u name d)
    (hr : s.request = .trimTo p) (hp : StripeFits p) (hsees : d.Sees a) (hop : d.pc = .walk v' p k)
    (hepoch : v'.epoch = v.epoch) (hview : v'.view = v.view)
    (hrun : TrimToOp.step s.options s.lb p (.walk v k, a) = .ok (pc', a')) :
    s.Can (fun d' => s.Ready u name d' ∧ d'.Sees a' ∧ Plays p d' pc') d := by
  simp only [TrimToOp.step, VersionedView.objectMap, ← hview] at hrun
  have hwalk : s.request.run s.options s.lb d.shared d.pc =
      (Request.trimTo p).run s.options s.lb d.shared (.walk v' p k) := by
    rw [hr, hop]
  simp only [Request.run, trimToOp, VersionedView.objectMap] at hwalk
  -- one round of `map_to`
  cases hmap : v'.view.objectMap.mapTo p k with
  | error f =>
    rw [hmap] at hrun
    cases hrun
  | ok result =>
    rw [hmap] at hrun hwalk
    cases result with
    -- all stripes were visited
    | done =>
      cases hrun
      exact h.access hwalk fun h₁ => .here ⟨h₁, ⟨hsees.backend, hsees.view⟩, rfl⟩
    -- the objects of a stripe
    | objects objects k' =>
      cases hrun
      refine h.access hwalk (fun h₁ => .here ⟨h₁, ⟨hsees.backend, hsees.view⟩, v', rfl, ?_⟩) rfl
        (OpPc.trimAll_inRange ..)
      exact ⟨hepoch, hview⟩
    -- the position is not mapped yet: expand first
    | unmapped =>
      refine h.access hwalk fun h₁ => ?_
      cases hexp : a.tryExpandView s.options s.lb p 7 with
      | error f =>
        dsimp only at hrun
        rw [hexp] at hrun
        cases hrun
      | ok x =>
        obtain ⟨ret, a₁⟩ := x
        dsimp only at hrun
        rw [hexp] at hrun
        refine (h₁.expands (not_checkTail hr) hp 6 ⟨hsees.backend, hsees.view⟩ rfl hexp).imp ?_
        rintro d₁ ⟨hready, hop₁, hsees₁⟩
        cases ret with
        | ok r =>
          cases hrun
          exact ⟨hready, hsees₁, none, hop₁⟩
        | error e =>
          cases hrun
          exact ⟨hready, hsees₁, hop₁⟩

/-- The loop over the objects of a stripe. -/
theorem Ready.plays_trim {pc' : TrimToPc} {v v' : VersionedView} {k : Nat} {oid : String}
    {full : Bool} {rest : List (String × Bool)} (h : s.Ready u name d)
    (hr : s.request = .trimTo p) (hsees : d.Sees a)
    (hop : d.pc = .trim v' p k oid full rest)
    (hepoch : v'.epoch = v.epoch) (hview : v'.view = v.view)
    (hrun : TrimToOp.step s.options s.lb p (.trim v k ((oid, full) :: rest), a) = .ok (pc', a')) :
    s.Can (fun d' => s.Ready u name d' ∧ d'.Sees a' ∧ Plays p d' pc') d := by
  have hr' := not_checkTail hr
  simp only [TrimToOp.step, ← hepoch, ← hsees.backend] at hrun
  cases htrim : d.backend.trim (s.lb.oid oid) v'.epoch p true full with
  | mk r b =>
    rw [htrim] at hrun
    have hexec : d.backend.exec (.trim (s.lb.oid oid) v'.epoch p true full) = (r, b) := htrim
    refine h.call (by rw [hop, hr]; rfl) hexec fun h₁ => ?_
    have hsees₁ : ∀ pc : OpPc, Scene.Sees { d with backend := b, pc := pc } { a with backend := b } :=
      fun pc => ⟨rfl, hsees.view⟩
    cases r with
    | ok r =>
      cases hrun
      exact .here ⟨h₁, hsees₁ _, v', rfl, hepoch, hview⟩
    | error e =>
      cases e with
      | espipe =>
        -- the object was sealed for a later view, which is stored
        dsimp only at hrun
        split at hrun
        · cases hrun
        · next hup =>
          cases hrun
          refine (h₁.updates (waits_wait hr' p none) rfl (h₁.live.facts.alone (hsees₁ _)) rfl
            hup).imp ?_
          rintro d₁ ⟨hready, hop₁, hsees₂⟩
          exact ⟨hready, hsees₂, none, hop₁⟩
      | enoent =>
        dsimp only at hrun
        cases hseal : b.seal (s.lb.oid oid) v'.epoch with
        | mk r b' =>
          rw [hseal] at hrun
          have hexec' : b.exec (.seal (s.lb.oid oid) v'.epoch) = (r, b') := hseal
          refine h₁.call (by rw [hr]; rfl) hexec' fun h₂ => ?_
          have hsees₂ : ∀ pc : OpPc,
              Scene.Sees { d with backend := b', pc := pc } { a with backend := b' } :=
            fun pc => ⟨rfl, hsees.view⟩
          cases r with
          | ok r =>
            cases hrun
            exact .here ⟨h₂, hsees₂ _, none, rfl⟩
          | error e =>
            cases e with
            | espipe =>
              cases hrun
              exact .here ⟨h₂, hsees₂ _, none, rfl⟩
            | _ =>
              cases hrun
              exact .here ⟨h₂, hsees₂ _, rfl⟩
      | _ =>
        cases hrun
        exact .here ⟨h₁, hsees₁ _, rfl⟩

/-- **Step lemma.**  A step of the account of `trimTo` is a run of the two threads. -/
theorem Ready.plays {pc pc' : TrimToPc} (h : s.Ready u name d) (hr : s.request = .trimTo p)
    (hp : StripeFits p) (hsees : d.Sees a) (hplays : Plays p d pc)
    (hrun : TrimToOp.step s.options s.lb p (pc, a) = .ok (pc', a')) :
    s.Can (fun d' => s.Ready u name d' ∧ d'.Sees a' ∧ Plays p d' pc') d := by
  cases pc with
  | start =>
    obtain ⟨pe, hop⟩ := hplays
    exact h.plays_start hr hsees hop hrun
  | walk v k =>
    obtain ⟨v', hop, hepoch, hview⟩ := hplays
    exact h.plays_walk hr hp hsees hop hepoch hview hrun
  -- the objects of a stripe, or the next stripe
  | trim v k objects =>
    obtain ⟨v', hop, hepoch, hview⟩ := hplays
    cases objects with
    | nil =>
      cases hrun
      exact .here ⟨h, hsees, v', hop, hepoch, hview⟩
    | cons x rest => exact h.plays_trim hr hsees hop hepoch hview hrun
  | done ret =>
    cases hrun
    exact .here ⟨h, hsees, hplays⟩

/-- **Run lemma.**  Where the account of `trimTo` returns, the two threads can return. -/
theorem Ready.plays_run {x y : TrimToPc × Alone} (h : s.Ready u name d) (hr : s.request = .trimTo p)
    (hp : StripeFits p) (hsees : d.Sees x.2) (hplays : Plays p d x.1)
    (hrun : Lib.Leads (TrimToOp.step s.options s.lb p) x y) :
    s.Can (fun d' => s.Ready u name d' ∧ d'.Sees y.2 ∧ Plays p d' y.1) d := by
  obtain ⟨n, hrun⟩ := hrun
  induction n generalizing d x with
  | zero =>
    cases hrun
    exact .here ⟨h, hsees, hplays⟩
  | succ n ih =>
    simp only [Lib.iterate] at hrun
    split at hrun
    · cases hrun
    · next z hstep =>
      refine (h.plays hr hp hsees hplays hstep).bind ?_
      rintro d₁ ⟨h₁, hsees₁, hplays₁⟩
      exact ih h₁ hsees₁ hplays₁ hrun

end

end Solo

end ZLog
