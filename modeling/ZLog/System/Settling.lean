import ZLog.System.Unfolding

/-!
# Back to the start of run

Wherever an operation is in the loops of its `run` method, with whatever view it read before, it gets
back to the top of the loop, or it returns.  The loops inside are bounded: the retries of
`try_expand_view`, the stripes and the objects that `trimTo` goes through, and the one object that an
append creates.

## Main results

- `Solo.Ready.settles`
-/

namespace ZLog

/-- The operation has returned, or is at the top of its loop. -/
def Scene.Restarts (d : Scene OpPc) : Prop :=
  d.Done ∨ ∃ p pe, d.pc = .start p pe ∧ StripeFits p

theorem Scene.Restarts.of_start {d : Scene OpPc} {p : Nat} {pe : Option Nat} (hp : StripeFits p)
    (h : d.pc = .start p pe) : d.Restarts := Or.inr ⟨p, pe, h, hp⟩

theorem Scene.Restarts.of_done {d : Scene OpPc} {result : Ret Reply} (h : d.pc = .done result) :
    d.Restarts := Or.inl ⟨result, h⟩

/-! ## Moves -/

section

variable {r : Request} {options : Options} {lb : LogBackend} {sh : Shared}

/-- Asking for an expansion does not block the operation: its call comes next. -/
theorem Request.run_scheduleExpand (hr : r ≠ .checkTail) (v : VersionedView) (oid : String)
    (p : Nat)
    (pe : Option Nat) : r.run options lb sh (.scheduleExpand v oid p pe) =
      some (.memory (asyncExpandView sh (nextPosition v.objectMap.maxPosition)) (.io v oid p pe)) := by
  cases r with
  | checkTail => exact absurd rfl hr
  | _ => rfl

end

/-- The position that the operation works on, for which it may expand the map. -/
def OpPc.target? : OpPc → Option Nat
  | .start p _ => some p
  | .scheduleExpand _ _ p _ => some p
  | .io _ _ p _ => some p
  | .seal _ _ p _ => some p
  | .expand p _ _ => some p
  | .wait p _ _ => some p
  | .advance p _ => some p
  | .walk _ p _ => some p
  | .trim _ p .. => some p
  | _ => none

namespace Solo

/-- The operation can get back to the top of its loop. -/
def Settles (s : Solo) (u : Uuid) (name : String) (d : Scene OpPc) : Prop :=
  s.Can (fun d' => s.Ready u name d' ∧ d'.Restarts) d

section

variable {s : Solo} {u : Uuid} {name : String} {d d' : Scene OpPc} {p : Nat} {pe : Option Nat}
  {P : Scene OpPc → Prop}

theorem Ready.settles_start (h : s.Ready u name d) (hp : StripeFits p) (hop : d.pc = .start p pe) :
    s.Settles u name d := .here ⟨h, .of_start hp hop⟩

theorem Ready.settles_done (h : s.Ready u name d) {result : Ret Reply} (hop : d.pc = .done result) :
    s.Settles u name d := .here ⟨h, .of_done hop⟩

/-- The wait for a view ends when the refresh thread has installed the latest one. -/
theorem Ready.settles_wait (h : s.Ready u name d) (hp : StripeFits p)
    (hr : s.request ≠ .checkTail) {pc : WaitPc}
    (hop : d.pc = .wait p pe pc) : s.Settles u name d := by
  refine (h.waited (waits_wait hr p pe) hop).imp ?_
  rintro d₁ ⟨h₁, hop₁, -, -⟩
  exact ⟨h₁, .of_start hp hop₁⟩

/-! ## Expanding the view -/

/-- After a refused expansion the operation starts over with one retry less. -/
theorem Ready.settles_stale (h : s.Ready u name d) (hp : StripeFits p)
    (hr : s.request ≠ .checkTail) {retries : Nat}
    {pc : WaitPc} (hop : d.pc = .expand p pe (.waitStale retries pc))
    (hagain : ∀ n d₁, n < retries → s.Ready u name d₁ → d₁.pc = .expand p pe (.start n) →
      s.Settles u name d₁) : s.Settles u name d := by
  refine (h.waited (waits_stale hr p pe retries) hop).bind ?_
  rintro d₁ ⟨h₁, hop₁, -, -⟩
  unfold afterStale at hop₁
  split at hop₁
  · exact h₁.settles_start hp hop₁
  · obtain ⟨v, hv⟩ := h₁.live.facts.view
    exact h₁.retries hr hop₁ (sees_view hv) fun d₂ h₂ hop₂ _ => hagain _ d₂ (by omega) h₂ hop₂

/-- The call that proposes the expanded view. -/
theorem Ready.settles_propose (h : s.Ready u name d) (hp : StripeFits p)
    (hr : s.request ≠ .checkTail) {retries : Nat}
    {curr : VersionedView} {newView : View}
    (hop : d.pc = .expand p pe (.propose retries curr newView))
    (hagain : ∀ n d₁, n < retries → s.Ready u name d₁ → d₁.pc = .expand p pe (.start n) →
      s.Settles u name d₁) : s.Settles u name d := by
  cases hprop : d.backend.proposeView s.lb.hoid (curr.epoch + 1) newView.encode with
  | mk r b =>
    have hexec : d.backend.exec (.proposeView s.lb.hoid (curr.epoch + 1) newView.encode) = (r, b) :=
      hprop
    refine h.call (by rw [hop, Request.run_expand hr]; rfl) hexec fun h₁ => ?_
    cases r with
    | ok r =>
      refine (h₁.waited (waits_new hr p pe) rfl).bind ?_
      rintro d₂ ⟨h₂, hop₂, -, -⟩
      obtain ⟨v, hv⟩ := h₂.live.facts.view
      refine (h₂.afterNewView hr hop₂ (sees_view hv)).imp ?_
      rintro d₃ ⟨h₃, hop₃, -⟩
      exact ⟨h₃, .of_start hp hop₃⟩
    | error e =>
      cases e with
      | espipe => exact h₁.settles_stale hp hr rfl hagain
      | _ => exact h₁.settles_done rfl

/-- The maps that the client holds can be expanded. -/
theorem Facts.expandMapping_ok (h : s.Facts u name d) {v : VersionedView}
    (hv : d.shared.view = some v) (p : Nat) : ∃ x, v.view.expandMapping p s.options = .ok x := by
  obtain ⟨m, hexp, -⟩ := (h.smallView hv).expandMapping_ok h.fits p
  unfold VersionedView.objectMap at hexp
  cases m with
  | none => exact ⟨none, by simp only [View.expandMapping, hexp]⟩
  | some m => exact ⟨some ⟨m, v.view.seqConfig⟩, by simp only [View.expandMapping, hexp]⟩

/-- At the top of `try_expand_view`; the induction is on the retries that are left. -/
theorem Ready.settles_expandStart (hp : StripeFits p) (hr : s.request ≠ .checkTail) (n : Nat)
    (h : s.Ready u name d)
    (hop : d.pc = .expand p pe (.start n)) : s.Settles u name d := by
  -- the retries that are left bound the loop
  induction n using Nat.strong_induction_on generalizing d with
  | _ n ih =>
    obtain ⟨v, hv⟩ := h.live.facts.view
    obtain ⟨proposal, hexp⟩ := h.live.facts.expandMapping_ok hv p
    have hagain : ∀ n' d₁, n' < n → s.Ready u name d₁ → d₁.pc = .expand p pe (.start n') →
        s.Settles u name d₁ := fun n' d₁ hlt h₁ hop₁ => ih n' hlt h₁ hop₁
    have hm : s.request.run s.options s.lb d.shared d.pc =
        Move.inside (.expand p pe) (OpPc.afterExpand p pe)
          (tryExpandView s.options s.lb p d.shared (.start n)) := by
      rw [hop, Request.run_expand hr]
    simp only [tryExpandView, Shared.withView, hv, hexp] at hm
    cases proposal with
    | none => exact h.access hm fun h₁ => h₁.settles_start hp rfl
    | some newView =>
      exact h.access hm (fun h₁ => h₁.settles_propose hp hr rfl hagain) rfl
        (h.live.facts.inRange hv hp hexp)

/-- From anywhere inside `try_expand_view`. -/
theorem Ready.settles_expand (h : s.Ready u name d) (hp : StripeFits p)
    (hr : s.request ≠ .checkTail) {pc : ExpandPc}
    (hop : d.pc = .expand p pe pc) : s.Settles u name d := by
  have hagain : ∀ (n : Nat) (d₁ : Scene OpPc), s.Ready u name d₁ → d₁.pc = .expand p pe (.start n) →
      s.Settles u name d₁ := fun n d₁ h₁ hop₁ => h₁.settles_expandStart hp hr n hop₁
  cases pc with
  | start retries => exact hagain retries d h hop
  | propose retries curr newView => exact h.settles_propose hp hr hop fun n d₁ _ => hagain n d₁
  | waitNew pc =>
    refine (h.waited (waits_new hr p pe) hop).bind ?_
    rintro d₁ ⟨h₁, hop₁, -, -⟩
    obtain ⟨v, hv⟩ := h₁.live.facts.view
    refine (h₁.afterNewView hr hop₁ (sees_view hv)).imp ?_
    rintro d₂ ⟨h₂, hop₂, -⟩
    exact ⟨h₂, .of_start hp hop₂⟩
  | initStripe =>
    have hm : s.request.run s.options s.lb d.shared d.pc = some (.memory
        { d.shared with stripeInitPos := d.shared.stripeInitPos ++ [p] } (.start p pe)) := by
      rw [hop, Request.run_expand hr]
      rfl
    exact h.access hm fun h₁ => h₁.settles_start hp rfl
  | waitStale retries pc => exact h.settles_stale hp hr hop fun n d₁ _ => hagain n d₁
  | checkShutdown retries =>
    obtain ⟨v, hv⟩ := h.live.facts.view
    exact h.retries hr hop (sees_view hv) fun d₁ h₁ hop₁ _ => hagain retries d₁ h₁ hop₁

/-! ## Read, Fill and Trim -/

/-- The request runs the loop of `ReadOp`, `FillOp` and `TrimOp`. -/
structure Loops (s : Solo) {α : Type} (call : String → Nat → Nat → Call Fbs.View (Ret α))
    (finish : Ret α → Ret Reply) : Prop where
  other : s.request ≠ .checkTail
  run : ∀ sh pc, s.request.run s.options s.lb sh pc = positionOp call finish s.options s.lb sh pc

variable {α : Type} {call : String → Nat → Nat → Call Fbs.View (Ret α)}
  {finish : Ret α → Ret Reply} {v : VersionedView} {oid : String}

/-- `Read` is one of the operations that loop on one position. -/
theorem loops_read (hr : s.request = .read p) : s.Loops .read finishRead := by
  refine ⟨?_, fun sh pc => ?_⟩
  · rw [hr]
    rintro ⟨⟩
  · rw [hr]
    rfl

theorem loops_fill (hr : s.request = .fill p) : s.Loops .fill finishUnit := by
  refine ⟨?_, fun sh pc => ?_⟩
  · rw [hr]
    rintro ⟨⟩
  · rw [hr]
    rfl

theorem loops_trim (hr : s.request = .trim p) :
    s.Loops (fun oid epoch position => .trim oid epoch position false false) finishUnit := by
  refine ⟨?_, fun sh pc => ?_⟩
  · rw [hr]
    rintro ⟨⟩
  · rw [hr]
    rfl

/-- A seal that was refused sends the operation to the top of its loop as well. -/
theorem Ready.settles_seal (h : s.Ready u name d) (hp : StripeFits p) (hl : s.Loops call finish)
    (hop : d.pc = .seal v oid p pe) : s.Settles u name d := by
  cases hseal : d.backend.seal (s.lb.oid oid) v.epoch with
  | mk r b =>
    have hexec : d.backend.exec (.seal (s.lb.oid oid) v.epoch) = (r, b) := hseal
    refine h.call (by rw [hop, hl.run]; rfl) hexec fun h₁ => ?_
    cases r with
    | ok r => exact h₁.settles_start hp rfl
    | error e =>
      cases e with
      | espipe => exact h₁.settles_start hp rfl
      | _ => exact h₁.settles_done rfl

/-- The call of the operation answers, or sends it to one of the states before. -/
theorem Ready.settles_io (h : s.Ready u name d) (hp : StripeFits p) (hl : s.Loops call finish)
    (hop : d.pc = .io v oid p pe) : s.Settles u name d := by
  cases hexec : d.backend.exec (call (s.lb.oid oid) v.epoch p) with
  | mk r b =>
    refine h.call (by rw [hop, hl.run]; rfl) hexec fun h₁ => ?_
    cases r with
    | ok r => exact h₁.settles_done rfl
    | error e =>
      cases e with
      | espipe => exact h₁.settles_wait hp hl.other rfl
      | enoent => exact h₁.settles_seal hp hl rfl
      | _ => exact h₁.settles_done rfl

/-! ## Append -/

variable {data : String}

theorem append_other (hr : s.request = .append data) : s.request ≠ .checkTail := by
  rw [hr]
  rintro ⟨⟩

/-- An append runs `appendOp` at every control state. -/
theorem append_run (hr : s.request = .append data) (sh : Shared) (pc : OpPc) :
    s.request.run s.options s.lb sh pc = appendOp data s.options s.lb sh pc := by
  rw [hr]
  rfl

/-- The answers to a write when the object exists. -/
theorem write_created {b : Store} (h : LogOk u name b) {t i e : Nat} (h0 : 0 < e)
    (hexists : objectAt u b t i ≠ none) (data : String) (p : Nat) :
    (∃ b', b.write (dataOid u t i) data e p = (.ok (), b')) ∨
    (b.write (dataOid u t i) data e p = (.error .erofs, b) ∧
      b.slotAt (dataOid u t i) p ≠ .unwritten) ∨
    (b.write (dataOid u t i) data e p = (.error .espipe, b) ∧ e < objectEpoch u b t i) := by
  rcases b.write_cases (dataOid u t i) data e p with ⟨err, hio, hw⟩ | ⟨o, hio, hslot, hw⟩ |
    ⟨o, -, -, hw⟩
  · rcases h.checkIo (s := t) (i := i) h0 with ⟨o, ho, -⟩ | ⟨herr, hlt⟩ | ⟨-, hnone⟩
    · rw [ho] at hio
      cases hio
    · rw [herr] at hio
      cases hio
      exact Or.inr (Or.inr ⟨hw, hlt⟩)
    · exact absurd hnone hexists
  · refine Or.inr (Or.inl ⟨hw, ?_⟩)
    rw [RAMBackend.slotAt_of_logAt (RAMBackend.checkIo_eq_ok.mp hio).2.2.1]
    exact hslot
  · exact Or.inl ⟨_, hw⟩

/-- The object exists: the write does not send the append to create it. -/
theorem Ready.settles_append_created (h : s.Ready u name d) (hp : StripeFits p)
    (hr : s.request = .append data)
    {t i : Nat} (hop : d.pc = .io v (Stripe.oidAt t i) p pe)
    (hexists : objectAt u d.backend t i ≠ none) : s.Settles u name d := by
  have hheld : Held u d.backend v := by
    have hpc := h.live.facts.op
    rw [hop] at hpc
    exact hpc.2.2.1
  have hexec : ∀ {x}, d.backend.write (dataOid u t i) data v.epoch p = x →
      d.backend.exec (.write (s.lb.oid (Stripe.oidAt t i)) data v.epoch p) = x := by
    rw [h.live.facts.handleOk.oid]
    exact id
  rcases write_created h.live.facts.log hheld.1 hexists data p with ⟨b, hw⟩ | ⟨hw, -⟩ | ⟨hw, -⟩
  · exact h.call (by rw [hop, append_run hr]; rfl) (hexec hw) fun h₁ => h₁.settles_done rfl
  · exact h.call (by rw [hop, append_run hr]; rfl) (hexec hw) fun h₁ => h₁.settles_start hp rfl
  · exact h.call (by rw [hop, append_run hr]; rfl) (hexec hw) fun h₁ =>
      h₁.settles_wait hp (append_other hr) rfl

/-- An append that creates its object goes on with the write. -/
theorem Ready.settles_append_seal (h : s.Ready u name d) (hp : StripeFits p)
    (hr : s.request = .append data)
    (hop : d.pc = .seal v oid p pe) : s.Settles u name d := by
  have hpc := h.live.facts.op
  rw [hop] at hpc
  obtain ⟨-, hheld, ⟨t, i, rfl⟩, -⟩ := hpc
  obtain ⟨r, b, hexec, hcases, hle, -⟩ := h.live.facts.log.exec_seal (s := t) (i := i) hheld.1
  rw [← h.live.facts.handleOk.oid] at hexec
  refine h.call (by rw [hop, append_run hr]; rfl) hexec fun h₁ => ?_
  rcases hcases with rfl | rfl
  · refine h₁.settles_append_created hp hr rfl fun hnone => ?_
    have hzero : objectEpoch u b t i = 0 := by
      unfold objectEpoch RAMBackend.epochAt
      rw [show b.logAt (dataOid u t i) = none from hnone]
    have hpos := hheld.1
    omega
  · exact h₁.settles_start hp rfl

/-- The write of an append answers, or the append starts again. -/
theorem Ready.settles_append_io (h : s.Ready u name d) (hp : StripeFits p)
    (hr : s.request = .append data)
    (hop : d.pc = .io v oid p pe) : s.Settles u name d := by
  cases hwrite : d.backend.write (s.lb.oid oid) data v.epoch p with
  | mk r b =>
    have hexec : d.backend.exec (.write (s.lb.oid oid) data v.epoch p) = (r, b) := hwrite
    refine h.call (by rw [hop, append_run hr]; rfl) hexec fun h₁ => ?_
    cases r with
    | ok r => exact h₁.settles_done rfl
    | error e =>
      cases e with
      | espipe => exact h₁.settles_wait hp (append_other hr) rfl
      | enoent => exact h₁.settles_append_seal hp hr rfl
      | erofs => exact h₁.settles_start hp rfl
      | _ => exact h₁.settles_done rfl

/-! ## Mapping a position -/

/-- The operation has looked its position up in the view. -/
inductive Looked (v : VersionedView) (p : Nat) (pe : Option Nat) : OpPc → Prop where
  | unmapped (last : Bool) : v.objectMap.map p = .ok (none, last) →
      Looked v p pe (.expand p pe .enter)
  /-- In the last stripe, so the expander is told to make room. -/
  | last (oid : String) : v.objectMap.map p = .ok (some oid, true) →
      Looked v p pe (.scheduleExpand v oid p pe)
  | mapped (oid : String) : v.objectMap.map p = .ok (some oid, false) →
      Looked v p pe (.io v oid p pe)

theorem Looked.inRange {pc : OpPc} (h : Looked v p pe pc) : pc.InRange := by
  cases h <;> trivial

/-- The state that the mapping leads to works on the position. -/
theorem Looked.target {pc : OpPc} (h : Looked v p pe pc) : pc.target? = some p := by
  cases h <;> rfl

theorem Looked.not_sequence {pc : OpPc} (h : Looked v p pe pc) (v' : VersionedView) (i : Nat) :
    pc ≠ .sequence v' i := by
  cases h <;> rintro ⟨⟩

/-- The mapping of a position ends in one of three states. -/
theorem mapPosition_looked (hsmall : v.objectMap.Small) (sh : Shared) (p : Nat) (pe : Option Nat) :
    ∃ pc, mapPosition sh v p pe = .memory sh pc ∧ Looked v p pe pc := by
  obtain ⟨⟨oid, last⟩, hmap⟩ := hsmall.map_ok p
  unfold mapPosition
  rw [hmap]
  cases oid with
  | none => exact ⟨_, rfl, .unmapped last hmap⟩
  | some oid =>
    cases last with
    | true => exact ⟨_, rfl, .last oid hmap⟩
    | false => exact ⟨_, rfl, .mapped oid hmap⟩

/-- The top of the loop, where the position is looked up. -/
theorem Ready.looks (h : s.Ready u name d)
    (hm : s.request.run s.options s.lb d.shared d.pc = some (mapPosition d.shared v p pe))
    (hsmall : v.objectMap.Small)
    (hP : ∀ pc, Looked v p pe pc → s.Ready u name { d with pc := pc } →
      s.Can P { d with pc := pc }) : s.Can P d := by
  obtain ⟨pc, heq, hl⟩ := mapPosition_looked hsmall d.shared p pe
  rw [heq] at hm
  exact h.access hm (hP pc hl) rfl hl.inRange

/-- The expander is told to make room, and the operation goes on to its backend call. -/
theorem Ready.scheduled (h : s.Ready u name d) (hr : s.request ≠ .checkTail)
    (hop : d.pc = .scheduleExpand v oid p pe)
    (hP : ∀ d', s.Ready u name d' → d'.pc = .io v oid p pe → d'.backend = d.backend →
      d'.shared.view = d.shared.view → d'.shared.seqs = d.shared.seqs → s.Can P d') :
    s.Can P d := by
  have hquiet := asyncExpandView_quiet d.shared (nextPosition v.objectMap.maxPosition)
  exact h.access (by rw [hop]; exact Request.run_scheduleExpand hr ..)
    (fun h₁ => hP _ h₁ rfl rfl hquiet.view hquiet.seqs) hquiet.seqs

/-- A mapped position takes the operation to its backend call, and an unmapped one into
    `try_expand_view`. -/
theorem Ready.looked (h : s.Ready u name d) (hr : s.request ≠ .checkTail)
    (hl : Looked v p pe d.pc)
    (hunmapped : d.pc = .expand p pe .enter → ¬ Maps v p → s.Can P d)
    (hmapped : ∀ d' oid last, v.objectMap.map p = .ok (some oid, last) → s.Ready u name d' →
      d'.pc = .io v oid p pe → d'.backend = d.backend → d'.shared.view = d.shared.view →
      d'.shared.seqs = d.shared.seqs → s.Can P d') : s.Can P d := by
  generalize hop : d.pc = pc at hl
  cases hl with
  | unmapped last hmap =>
    refine hunmapped hop ?_
    rintro ⟨oid, last', hmap'⟩
    rw [hmap] at hmap'
    cases hmap'
  | last oid hmap => exact h.scheduled hr hop fun d' => hmapped d' oid true hmap
  | mapped oid hmap => exact hmapped d oid false hmap h hop rfl rfl rfl

/-! ## trimTo -/

/-- A `trimTo` runs `trimToOp` at every control state. -/
theorem trimTo_run (hr : s.request = .trimTo p) (sh : Shared) (pc : OpPc) :
    s.request.run s.options s.lb sh pc = trimToOp s.options s.lb sh pc := by
  rw [hr]
  rfl

/-- From inside `advance_min_valid_position`. -/
theorem Ready.settles_advance (h : s.Ready u name d) (hp : StripeFits p)
    (hr : s.request = .trimTo p) {pc : AdvancePc}
    (hop : d.pc = .advance p pc) : s.Settles u name d := by
  have hwait : ∀ (d₁ : Scene OpPc) (pc : WaitPc), s.Ready u name d₁ → d₁.pc = .advance p (.wait pc) →
      s.Settles u name d₁ := by
    intro d₁ pc h₁ hop₁
    refine (h₁.waited (waits_advance hr p) hop₁).imp ?_
    rintro d₂ ⟨h₂, hop₂, -, -⟩
    exact ⟨h₂, .of_start hp hop₂⟩
  have hpropose : ∀ (d₁ : Scene OpPc) (curr : VersionedView) (newView : View), s.Ready u name d₁ →
      d₁.pc = .advance p (.propose curr newView) → s.Settles u name d₁ := by
    intro d₁ curr newView h₁ hop₁
    cases hprop : d₁.backend.proposeView s.lb.hoid (curr.epoch + 1) newView.encode with
    | mk r b =>
      have hexec : d₁.backend.exec (.proposeView s.lb.hoid (curr.epoch + 1) newView.encode) =
          (r, b) := hprop
      refine h₁.call (by rw [hop₁, hr, Request.run_advance]; rfl) hexec fun h₂ => ?_
      cases r with
      | ok r => exact hwait _ _ h₂ rfl
      | error e =>
        cases e with
        | espipe => exact hwait _ _ h₂ rfl
        | _ => exact h₂.settles_done rfl
  cases pc with
  | start =>
    obtain ⟨v, hv⟩ := h.live.facts.view
    have hm : s.request.run s.options s.lb d.shared d.pc =
        Move.inside (.advance p) (OpPc.afterAdvance p)
          (advanceMinValidPosition s.lb (nextPosition p) d.shared .start) := by
      rw [hop, hr, Request.run_advance]
    simp only [advanceMinValidPosition, Shared.withView, hv] at hm
    cases hadv : v.view.advanceMinValidPosition (nextPosition p) with
    | none =>
      rw [hadv] at hm
      exact h.access hm fun h₁ => h₁.settles_start hp rfl
    | some newView =>
      rw [hadv] at hm
      exact h.access hm fun h₁ => hpropose _ v newView h₁ rfl
  | propose curr newView => exact hpropose d curr newView h hop
  | wait pc => exact hwait d pc h hop

theorem Ready.settles_trimTo_seal {q : Nat} (h : s.Ready u name d) (hq : StripeFits q)
    (hr : s.request = .trimTo p)
    (hop : d.pc = .seal v oid q pe) : s.Settles u name d := by
  cases hseal : d.backend.seal (s.lb.oid oid) v.epoch with
  | mk r b =>
    have hexec : d.backend.exec (.seal (s.lb.oid oid) v.epoch) = (r, b) := hseal
    refine h.call (by rw [hop, trimTo_run hr]; rfl) hexec fun h₁ => ?_
    cases r with
    | ok r => exact h₁.settles_start hq rfl
    | error e =>
      cases e with
      | espipe => exact h₁.settles_start hq rfl
      | _ => exact h₁.settles_done rfl

/-- The objects of a stripe, one after the other. -/
theorem Ready.settles_trimAll {k : Nat} (hp : StripeFits p) (hr : s.request = .trimTo p)
    (hwalk : ∀ d₁, s.Ready u name d₁ → d₁.pc = .walk v p k → s.Settles u name d₁)
    (objects : List (String × Bool)) (h : s.Ready u name d)
    (hop : d.pc = .trimAll v p k objects) : s.Settles u name d := by
  induction objects generalizing d with
  | nil => exact hwalk d h hop
  | cons x rest ih =>
    obtain ⟨oid, full⟩ := x
    have hop : d.pc = .trim v p k oid full rest := hop
    cases htrim : d.backend.trim (s.lb.oid oid) v.epoch p true full with
    | mk r b =>
      have hexec : d.backend.exec (.trim (s.lb.oid oid) v.epoch p true full) = (r, b) := htrim
      refine h.call (by rw [hop, trimTo_run hr]; rfl) hexec fun h₁ => ?_
      cases r with
      | ok r => exact ih h₁ rfl
      | error e =>
        cases e with
        | espipe => exact h₁.settles_wait hp (not_checkTail hr) rfl
        | enoent => exact h₁.settles_trimTo_seal hp hr rfl
        | _ => exact h₁.settles_done rfl

/-- The iteration goes on with the next stripe. -/
theorem mapTo_next {m : ObjectMap} {k k' : Nat} {objects : List (String × Bool)}
    (h : m.mapTo p k = .ok (.objects objects k')) : k < m.numStripes ∧ k' = k + 1 := by
  unfold ObjectMap.mapTo at h
  split at h
  · cases h
  · cases h
  · split at h
    · cases h
    · next hlt =>
      refine ⟨Nat.lt_of_not_le hlt, ?_⟩
      split at h
      · cases h
      · split at h <;> cases h <;> rfl

/-- The stripes, one after the other. -/
theorem Ready.settles_walk {k : Nat} (h : s.Ready u name d) (hp : StripeFits p)
    (hr : s.request = .trimTo p)
    (hop : d.pc = .walk v p k) : s.Settles u name d := by
  -- the stripes that are left bound the walk
  induction hn : v.objectMap.numStripes - k using Nat.strong_induction_on generalizing d k with
  | _ n ih =>
    have hheld : Held u d.backend v := by
      have hpc := h.live.facts.op
      rw [hop] at hpc
      exact hpc.2.1
    obtain ⟨result, hmap⟩ := (h.live.facts.small v.view hheld.mem).mapTo_ok p k
    have hm : s.request.run s.options s.lb d.shared d.pc =
        trimToOp s.options s.lb d.shared (.walk v p k) := by
      rw [hop, trimTo_run hr]
    have hmap : v.objectMap.mapTo p k = .ok result := hmap
    simp only [trimToOp, hmap] at hm
    cases result with
    | unmapped => exact h.access hm fun h₁ => h₁.settles_expand hp (not_checkTail hr) rfl
    | done => exact h.access hm fun h₁ => h₁.settles_done rfl
    | objects objects k' =>
      obtain ⟨hlt, rfl⟩ := mapTo_next hmap
      refine h.access hm (fun h₁ => h₁.settles_trimAll hp hr (fun d₁ h₁ hop₁ => ?_) objects rfl) rfl
        (OpPc.trimAll_inRange ..)
      exact ih _ (by omega) h₁ hop₁ rfl

/-- The loop over the objects of a stripe; the induction is on the objects that are left. -/
theorem Ready.settles_trim {k : Nat} {full : Bool} (hp : StripeFits p) {rest : List (String × Bool)}
    (h : s.Ready u name d) (hr : s.request = .trimTo p)
    (hop : d.pc = .trim v p k oid full rest) : s.Settles u name d :=
  Ready.settles_trimAll hp hr (fun _ h₁ hop₁ => h₁.settles_walk hp hr hop₁) ((oid, full) :: rest) h hop

/-! ## All operations -/

/-- The requests at one position. -/
def Positional (s : Solo) : Prop :=
  ∃ p, s.request = .read p ∨ s.request = .fill p ∨ s.request = .trim p

/-- `Read`, `Fill` and `Trim` settle from every control state. -/
theorem Ready.settles_positional (h : s.Ready u name d) (hr : s.Positional)
    (hp : ∀ p, d.pc.target? = some p → StripeFits p) (hl : s.Loops call finish) :
    s.Settles u name d := by
  have hvisits : ∀ v i, d.pc ≠ .sequence v i := by
    intro v i hop
    have hvisits := h.live.facts.visits
    rw [hop] at hvisits
    obtain ⟨p, hr | hr | hr⟩ := hr <;> rw [hr] at hvisits <;> exact hvisits
  have htrimTo : ∀ p, s.request ≠ .trimTo p := by
    intro p hr'
    obtain ⟨q, hr | hr | hr⟩ := hr <;> rw [hr] at hr' <;> cases hr'
  have hpc := h.live.facts.op
  have hfit : ∀ {pc}, d.pc = pc → ∀ p, pc.target? = some p → StripeFits p := by
    rintro _ rfl
    exact hp
  cases hop : d.pc with
  | start p pe => exact h.settles_start (hfit hop _ rfl) hop
  | sequence v i => exact absurd hop (hvisits v i)
  | scheduleExpand v oid p pe =>
    exact h.scheduled hl.other hop fun d₁ h₁ hop₁ _ _ _ => h₁.settles_io (hfit hop _ rfl) hl hop₁
  | io v oid p pe => exact h.settles_io (hfit hop _ rfl) hl hop
  | «seal» v oid p pe => exact h.settles_seal (hfit hop _ rfl) hl hop
  | expand p pe pc => exact h.settles_expand (hfit hop _ rfl) hl.other hop
  | wait p pe pc => exact h.settles_wait (hfit hop _ rfl) hl.other hop
  | advance p pc =>
    rw [hop] at hpc
    exact absurd hpc.1 (htrimTo p)
  | walk v p k =>
    rw [hop] at hpc
    exact absurd hpc.1 (htrimTo p)
  | trim v p k oid full rest =>
    rw [hop] at hpc
    exact absurd hpc.1 (htrimTo p)
  | done result => exact h.settles_done hop

/-- An append settles from every control state but the one that draws. -/
theorem Ready.settles_append (h : s.Ready u name d) (hr : s.request = .append data)
    (hp : ∀ p, d.pc.target? = some p → StripeFits p) (hdraw : ∀ v i, d.pc ≠ .sequence v i) :
    s.Settles u name d := by
  have hother := append_other hr
  have hpc := h.live.facts.op
  rw [hr] at hpc
  have hfit : ∀ {pc}, d.pc = pc → ∀ p, pc.target? = some p → StripeFits p := by
    rintro _ rfl
    exact hp
  cases hop : d.pc with
  | start p pe => exact h.settles_start (hfit hop _ rfl) hop
  | sequence v i => exact absurd hop (hdraw v i)
  | scheduleExpand v oid p pe =>
    exact h.scheduled hother hop fun d₁ h₁ hop₁ _ _ _ =>
      h₁.settles_append_io (hfit hop _ rfl) hr hop₁
  | io v oid p pe => exact h.settles_append_io (hfit hop _ rfl) hr hop
  | «seal» v oid p pe => exact h.settles_append_seal (hfit hop _ rfl) hr hop
  | expand p pe pc => exact h.settles_expand (hfit hop _ rfl) hother hop
  | wait p pe pc => exact h.settles_wait (hfit hop _ rfl) hother hop
  | advance p pc =>
    rw [hop] at hpc
    cases hpc.1
  | walk v p k =>
    rw [hop] at hpc
    cases hpc.1
  | trim v p k oid full rest =>
    rw [hop] at hpc
    cases hpc.1
  | done result => exact h.settles_done hop

/-- A `trimTo` settles from every control state. -/
theorem Ready.settles_trimTo (h : s.Ready u name d) (hr : s.request = .trimTo p)
    (hp : ∀ p, d.pc.target? = some p → StripeFits p) :
    s.Settles u name d := by
  have hother := not_checkTail hr
  have hpc := h.live.facts.op
  have hvisits := h.live.facts.visits
  rw [hr] at hpc hvisits
  have hfit : ∀ {pc}, d.pc = pc → ∀ p, pc.target? = some p → StripeFits p := by
    rintro _ rfl
    exact hp
  cases hop : d.pc with
  | start q pe => exact h.settles_start (hfit hop _ rfl) hop
  | sequence v i =>
    rw [hop] at hvisits
    exact hvisits.elim
  | scheduleExpand v oid q pe =>
    rw [hop] at hpc
    exact hpc.2.1.elim
  | io v oid q pe =>
    rw [hop] at hpc
    exact hpc.2.1.elim
  | «seal» v oid q pe => exact h.settles_trimTo_seal (hfit hop _ rfl) hr hop
  | expand q pe pc => exact h.settles_expand (hfit hop _ rfl) hother hop
  | wait q pe pc => exact h.settles_wait (hfit hop _ rfl) hother hop
  | advance q pc =>
    rw [hop] at hpc
    cases hpc.1
    exact h.settles_advance (hfit hop _ rfl) hr hop
  | walk v q k =>
    rw [hop] at hpc
    cases hpc.1
    exact h.settles_walk (hfit hop _ rfl) hr hop
  | trim v q k oid full rest =>
    rw [hop] at hpc
    cases hpc.1
    exact h.settles_trim (hfit hop _ rfl) hr hop
  | done result => exact h.settles_done hop

/-- `CheckTail` settles at once. -/
theorem Ready.settles_checkTail (h : s.Ready u name d) (hr : s.request = .checkTail)
    (hp : ∀ p, d.pc.target? = some p → StripeFits p) :
    s.Settles u name d := by
  have hvisits := h.live.facts.visits
  rw [hr] at hvisits
  have hfit : ∀ {pc}, d.pc = pc → ∀ p, pc.target? = some p → StripeFits p := by
    rintro _ rfl
    exact hp
  cases hop : d.pc with
  | start p pe => exact h.settles_start (hfit hop _ rfl) hop
  | sequence v i =>
    obtain ⟨seq, hseq⟩ : ∃ seq, d.shared.seqs[i]? = some seq :=
      ⟨_, List.getElem?_eq_getElem (h.live.facts.backed.sequencer v i hop)⟩
    have hm : s.request.run s.options s.lb d.shared d.pc =
        some (.memory d.shared (.done (.ok (.position seq.tail)))) := by
      rw [hop, hr]
      simp only [Request.run, tailOp, hseq]
    exact h.access hm fun h₁ => h₁.settles_done rfl
  | done result => exact h.settles_done hop
  | _ =>
    rw [hop] at hvisits
    exact hvisits.elim

/-- **From everywhere** but a draw the operation gets back to the top of its loop. -/
theorem Ready.settles (h : s.Ready u name d) (hp : ∀ p, d.pc.target? = some p → StripeFits p)
    (hdraw : ∀ data, s.request = .append data → ∀ v i, d.pc ≠ .sequence v i) :
    s.Settles u name d := by
  cases hr : s.request with
  | append data => exact h.settles_append hr hp (hdraw data hr)
  | read p => exact h.settles_positional ⟨p, Or.inl hr⟩ hp (loops_read hr)
  | fill p => exact h.settles_positional ⟨p, Or.inr (Or.inl hr)⟩ hp (loops_fill hr)
  | trim p => exact h.settles_positional ⟨p, Or.inr (Or.inr hr)⟩ hp (loops_trim hr)
  | trimTo p => exact h.settles_trimTo hr hp
  | checkTail => exact h.settles_checkTail hr hp

end

end Solo

end ZLog
