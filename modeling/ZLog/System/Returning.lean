import ZLog.System.Settling

/-!
# Every operation can return

Operations of other clients may have left an operation in the middle of any of its loops, with a view
that is long out of date.  If from then on only this operation and the refresh thread of its client
run, it can return, unless an object was sealed for a view that nobody stores or the refresh thread
was overtaken while the log was opened.

With the latest view an operation on one position needs at most one expansion and one new object.
An append may find positions taken that its sequencer gives out; they are all below the end of the
latest view.  All of this happens below the 64-bit wrap when what the client and the log know is a
stripe away from it.

## Main results

- `operation_can_return`
-/

namespace ZLog

/-- The client has the view, and it is the latest one. -/
structure Scene.Holds (u : Uuid) (d : Scene OpPc) (v : VersionedView) : Prop where
  view : d.shared.view = some v
  latest : v.epoch = latestEpoch u d.backend

theorem Scene.Holds.of_views {u : Uuid} {d : Scene OpPc} {v : VersionedView} {b : Store} {pc : OpPc}
    (hv : d.Holds u v) (hviews : viewsOf u b = viewsOf u d.backend) :
    Scene.Holds u { d with backend := b, pc := pc } v := by
  refine ⟨hv.view, ?_⟩
  show v.epoch = (viewsOf u b).length
  rw [hviews]
  exact hv.latest

namespace Solo

/-- The operation can return, and draws no position on its way. -/
def Finishes (s : Solo) (d : Scene OpPc) : Prop := s.Can Scene.Done d

/-- The operation can return. -/
def Returns (s : Solo) (d : Scene OpPc) : Prop := Lib.Can s.caller.step s.InRange Scene.Done d

section

variable {s : Solo} {u : Uuid} {name : String} {d d' : Scene OpPc} {p : Nat} {pe : Option Nat}
  {v : VersionedView} {oid : String} {t i : Nat} {P : Scene OpPc → Prop}

theorem finishes_done {result : Ret Reply} (hop : d.pc = .done result) : s.Finishes d :=
  .here ⟨result, hop⟩

theorem Can.returns (h : s.Can P d) (hP : ∀ d', P d' → s.Returns d') : s.Returns d :=
  (Lib.Can.mono h fun _ _ hok => hok.1).bind hP

theorem Finishes.returns (h : s.Finishes d) : s.Returns d := Can.returns h fun _ hdone => .here hdone

/-- An operation at the top of its loop has not returned. -/
theorem not_done_start (hop : d.pc = .start p pe) : ¬ d.Done := by
  rintro ⟨result, hdone⟩
  rw [hop] at hdone
  cases hdone

/-- An operation at the top of its loop gets the latest view. -/
theorem Ready.freshens (h : s.Ready u name d) (hrun : ¬ d.Done) :
    s.Can (fun d' => s.Ready u name d' ∧ d'.pc = d.pc ∧ ∃ v, d'.Holds u v) d := by
  refine (h.pass hrun).imp ?_
  rintro d₁ ⟨h₁, hop₁, -, ⟨v, hv, hepoch⟩, -⟩
  exact ⟨h₁, hop₁, v, hv, hepoch⟩

/-! ## Objects -/

/-- With the latest view no object asks for a newer one. -/
theorem Ready.checkIo (h : s.Ready u name d) (hv : d.Holds u v) (t i : Nat) :
    (∃ o, d.backend.checkIo (dataOid u t i) v.epoch = .ok o ∧ objectAt u d.backend t i = some o) ∨
    (d.backend.checkIo (dataOid u t i) v.epoch = .error .enoent ∧
      objectAt u d.backend t i = none) := by
  have hpos := (h.live.facts.held hv.view).1
  rcases h.live.facts.log.checkIo (s := t) (i := i) hpos with hok | ⟨-, hlt⟩ | hnone
  · exact Or.inl hok
  · have hle := h.calm t i
    have hlatest := hv.latest
    omega
  · exact Or.inr hnone

/-- A missing object is created without a new view. -/
theorem Facts.creates (h : s.Facts u name d) (hv : d.shared.view = some v)
    (hnone : objectAt u d.backend t i = none) :
    ∃ b, d.backend.exec (.seal (s.lb.oid (Stripe.oidAt t i)) v.epoch) = (.ok (), b) ∧
      viewsOf u b = viewsOf u d.backend ∧ objectAt u b t i ≠ none := by
  obtain ⟨b, hseal, hwalked, hsome⟩ := (h.alone (sees_view hv)).seal hnone
  rw [h.handleOk.oid]
  exact ⟨b, hseal, hwalked.views, hsome⟩

/-! ## Expanding -/

/-- With the latest view an unmapped position is mapped after one expansion. -/
theorem Ready.grows (h : s.Ready u name d) (hr : s.request ≠ .checkTail) (hp : StripeFits p)
    (hv : d.Holds u v) (hop : d.pc = .expand p pe .enter) (hmap : ¬ Maps v p) :
    s.Can (fun d' => s.Ready u name d' ∧ d'.pc = .start p pe ∧
      ∃ v', d'.Holds u v' ∧ Maps v' p) d := by
  -- the proposal alone, as in the analysis of a client that is by itself
  have hfacts := h.live.facts
  have hsees := sees_view (d := d) hv.view
  obtain ⟨m, a, hrun, hprop, hmaps, -⟩ := (hfacts.alone hsees).expand_current hfacts.handleOk
    hfacts.fits hv.latest hmap 6
  refine (h.expands hr hp 6 hsees hop hrun).imp ?_
  rintro d₁ ⟨h₁, hop₁, hb₁, v₁, hv₁, hepoch₁, hview₁⟩
  -- the caller holds the view that it proposed
  refine ⟨h₁, hop₁, v₁, ⟨hv₁, ?_⟩, ?_⟩
  · rw [hepoch₁, hb₁]
    exact hprop.current
  · obtain ⟨oid, hname⟩ := hmaps
    refine ⟨oid, ?_⟩
    unfold VersionedView.objectMap at hname ⊢
    rw [hview₁]
    exact hname

/-- From the lookup of a mapped position to the backend call. -/
theorem Ready.reaches_io (h : s.Ready u name d) (hr : s.request ≠ .checkTail) (hv : d.Holds u v)
    (hl : Looked v p pe d.pc) (hmap : Maps v p)
    (hP : ∀ d₁ t i last, v.objectMap.map p = .ok (some (Stripe.oidAt t i), last) →
      s.Ready u name d₁ → d₁.pc = .io v (Stripe.oidAt t i) p pe → d₁.Holds u v →
      d₁.backend = d.backend → d₁.shared.seqs = d.shared.seqs → s.Can P d₁) : s.Can P d := by
  refine h.looked hr hl (fun _ hunmapped => absurd hmap hunmapped) ?_
  intro d₁ oid last hmap h₁ hop₁ hb₁ hview₁ hseqs₁
  have hpc := h₁.live.facts.op
  rw [hop₁] at hpc
  obtain ⟨-, -, -, t, i, -, rfl, -⟩ := hpc
  refine hP d₁ t i last hmap h₁ hop₁ ⟨hview₁.trans hv.view, ?_⟩ hb₁ hseqs₁
  rw [hb₁]
  exact hv.latest

/-! ## Read, Fill and Trim -/

variable {α : Type} {call : String → Nat → Nat → Call Fbs.View (Ret α)}
  {finish : Ret α → Ret Reply}

/-- The call passes on what the check of the object says, and no answer of its own sends the loop
    round again. -/
structure Answers (call : String → Nat → Nat → Call Fbs.View (Ret α)) : Prop where
  refused : ∀ (b : Store) oid e p err, b.checkIo oid e = .error err →
    b.exec (call oid e p) = (.error err, b)
  allowed : ∀ (b : Store) oid e p o, b.checkIo oid e = .ok o →
    (b.exec (call oid e p)).1 ≠ .error .espipe ∧ (b.exec (call oid e p)).1 ≠ .error .enoent

theorem answers_read : Answers .read := by
  refine ⟨?_, ?_⟩
  · intro b oid e p err hio
    simp only [RAMBackend.exec, RAMBackend.read, hio]
  · intro b oid e p o hio
    simp only [RAMBackend.exec, RAMBackend.read_of_checkIo hio, LogObject.read_eq]
    cases o.slot p <;> exact ⟨by rintro ⟨⟩, by rintro ⟨⟩⟩

theorem answers_fill : Answers .fill := by
  refine ⟨?_, ?_⟩
  · intro b oid e p err hio
    simp only [RAMBackend.exec, RAMBackend.fill, hio]
  · intro b oid e p o hio
    show (b.fill oid e p).1 ≠ _ ∧ (b.fill oid e p).1 ≠ _
    rcases b.fill_cases oid e p with ⟨err, herr, -⟩ | ⟨_, _, -, -, hf⟩ | ⟨_, -, -, hf⟩ |
      ⟨_, -, -, hf⟩
    · rw [hio] at herr
      cases herr
    all_goals
      rw [hf]
      exact ⟨by rintro ⟨⟩, by rintro ⟨⟩⟩

theorem answers_trim :
    Answers fun oid epoch position => .trim oid epoch position false false := by
  refine ⟨?_, ?_⟩
  · intro b oid e p err hio
    simp [RAMBackend.exec, RAMBackend.trim, hio]
  · intro b oid e p o hio
    simp [RAMBackend.exec, RAMBackend.trim, hio]

/-- The backend call, when the object exists. -/
theorem Ready.finishes_created (h : s.Ready u name d) (hl : s.Loops call finish)
    (ha : Answers call) (hop : d.pc = .io v (Stripe.oidAt t i) p pe) (hv : d.Holds u v)
    (hexists : objectAt u d.backend t i ≠ none) : s.Finishes d := by
  -- the object is there and its epoch is not ahead of the view
  rcases h.checkIo hv t i with ⟨o, hio, -⟩ | ⟨-, hnone⟩
  · rw [← h.live.facts.handleOk.oid] at hio
    obtain ⟨hpipe, hnoent⟩ := ha.allowed d.backend _ v.epoch p o hio
    cases hexec : d.backend.exec (call (s.lb.oid (Stripe.oidAt t i)) v.epoch p) with
    -- whatever the call returns, it is an answer
    | mk r b =>
      rw [hexec] at hpipe hnoent
      refine h.call (by rw [hop, hl.run]; rfl) hexec fun h₁ => ?_
      cases r with
      | ok r => exact finishes_done rfl
      | error e =>
        cases e with
        | espipe => exact absurd rfl hpipe
        | enoent => exact absurd rfl hnoent
        | _ => exact finishes_done rfl
  · exact absurd hnone hexists

/-- The top of the loop, with the latest view. -/
theorem Ready.starts (h : s.Ready u name d) (hl : s.Loops call finish) (hop : d.pc = .start p pe)
    (hv : d.Holds u v)
    (hP : ∀ pc, Looked v p pe pc → s.Ready u name { d with pc := pc } →
      s.Can P { d with pc := pc }) : s.Can P d := by
  refine h.looks ?_ (h.live.facts.smallView hv.view) hP
  rw [hop, hl.run]
  simp only [positionOp, Shared.withView, hv.view]

theorem Ready.finishes_mapped (h : s.Ready u name d) (hl : s.Loops call finish) (ha : Answers call)
    (hop : d.pc = .start p pe) (hv : d.Holds u v) (hmap : Maps v p) : s.Finishes d := by
  refine h.starts hl hop hv fun pc hlooked h₀ => ?_
  refine h₀.reaches_io hl.other (v := v) ⟨hv.view, hv.latest⟩ hlooked hmap ?_
  intro d₁ t i last hmap₁ h₁ hop₁ hv₁ _ _
  rcases h₁.checkIo hv₁ t i with ⟨o, -, ho⟩ | ⟨hio, hnone⟩
  · exact h₁.finishes_created hl ha hop₁ hv₁ (by rw [ho]; exact Option.some_ne_none _)
  · -- the object is missing: it is created, and the loop goes round once more
    rw [← h₁.live.facts.handleOk.oid] at hio
    refine h₁.call (by rw [hop₁, hl.run]; rfl) (ha.refused _ _ _ p _ hio) fun h₂ => ?_
    obtain ⟨b, hseal, hviews, hsome⟩ := h₁.live.facts.creates hv₁.view hnone
    refine h₂.call (by rw [hl.run]; rfl) hseal fun h₃ => ?_
    refine h₃.starts hl rfl (hv₁.of_views hviews) fun pc hlooked h₄ => ?_
    refine h₄.reaches_io hl.other (hv₁.of_views hviews) hlooked hmap ?_
    intro d₅ t' i' last' hmap₅ h₅ hop₅ hv₅ hb₅ _
    have hname := hmap₁.symm.trans hmap₅
    simp only [Except.ok.injEq, Prod.mk.injEq, Option.some.injEq] at hname
    obtain ⟨rfl, rfl⟩ := oidAt_injective hname.1
    exact h₅.finishes_created hl ha hop₅ hv₅ (by rw [hb₅]; exact hsome)

theorem Ready.finishes_positional (h : s.Ready u name d) (hp : StripeFits p)
    (hl : s.Loops call finish) (ha : Answers call) (hop : d.pc = .start p pe) : s.Finishes d := by
  refine (h.freshens (not_done_start hop)).bind ?_
  rintro d₁ ⟨h₁, hop₁, v, hv₁⟩
  rw [hop] at hop₁
  by_cases hmap : Maps v p
  · exact h₁.finishes_mapped hl ha hop₁ hv₁ hmap
  · refine h₁.starts hl hop₁ hv₁ fun pc hlooked h₂ => ?_
    refine h₂.looked hl.other hlooked (fun hop₂ _ => ?_) ?_
    · refine (h₂.grows hl.other hp (v := v) ⟨hv₁.view, hv₁.latest⟩ hop₂ hmap).bind ?_
      rintro d₃ ⟨h₃, hop₃, v₃, hv₃, hmap₃⟩
      exact h₃.finishes_mapped hl ha hop₃ hv₃ hmap₃
    · intro _ oid last hmapped
      exact absurd ⟨oid, last, hmapped⟩ hmap

/-! ## CheckTail and trimTo -/

/-- `CheckTail` finds the view and reads the counter. -/
theorem Ready.finishes_checkTail (h : s.Ready u name d) (hr : s.request = .checkTail)
    (hop : d.pc = .start p pe) : s.Finishes d := by
  obtain ⟨v, hv⟩ := h.live.facts.view
  -- the first access looks for the sequencer of the view
  have hm : s.request.run s.options s.lb d.shared d.pc =
      tailOp d.shared (.start p pe) := by
    rw [hop, hr]
    rfl
  simp only [tailOp, Shared.withView, hv] at hm
  cases hseq : v.seq with
  | none =>
    rw [hseq] at hm
    exact h.access hm fun _ => finishes_done rfl
  | some i =>
    rw [hseq] at hm
    refine h.access hm fun h₁ => ?_
    obtain ⟨seq, hi⟩ : ∃ seq, d.shared.seqs[i]? = some seq :=
      ⟨_, List.getElem?_eq_getElem (h.live.facts.seqs.lt_length hv hseq)⟩
    have hm' : s.request.run s.options s.lb d.shared (.sequence v i) =
        some (.memory d.shared (.done (.ok (.position seq.tail)))) := by
      rw [hr]
      simp only [Request.run, tailOp, hi]
    exact h₁.access hm' fun _ => finishes_done rfl

/-- `trimTo` returns because its account does. -/
theorem Ready.finishes_trimTo {q : Nat} (h : s.Ready u name d) (hr : s.request = .trimTo p)
    (hp : StripeFits p) (hop : d.pc = .start q pe) : s.Finishes d := by
  have hfacts := h.live.facts
  obtain ⟨v, hv⟩ := hfacts.view
  obtain rfl : p = q := by
    have hpc := hfacts.op
    rw [hop, hr] at hpc
    exact hpc
  have hsees := sees_view (d := d) hv
  -- the stripe of the position ends below the wrap
  have hnext : p < nextPosition p := by
    have hlt : p + 1 < 2 ^ 64 := Nat.lt_of_lt_of_le (Nat.add_lt_add_left (by decide) p) hp
    rw [nextPosition, Nat.mod_eq_of_lt hlt]
    exact Nat.lt_succ_self p
  -- no object is sealed ahead of the views
  have hfree : ¬ SealedAhead u d.backend p := by
    rintro ⟨t, i, v', hsealed⟩
    have hle := h.calm t i
    have hlt := hsealed.ahead
    omega
  obtain ⟨⟨pc, a⟩, hleads, ret, hret⟩ := (hfacts.alone hsees).returns hfacts.handleOk hfacts.fits
    hnext hfree
  -- the steps of the caller are those of the analysis
  refine (h.plays_run (x := (.start, ⟨d.backend, v⟩)) hr hp hsees ⟨pe, hop⟩ hleads).imp ?_
  rintro d₁ ⟨-, -, hplays⟩
  rw [hret] at hplays
  exact ⟨_, hplays⟩

/-! ## Append -/

variable {data : String} {turn : Turn} {q : Sequencer} {bound : Nat}

/-- No position from the bound on was used. -/
def Unused (u : Uuid) (bound : Nat) (d : Scene OpPc) : Prop :=
  ∀ q, bound ≤ q → positionSlot u d.backend q = .unwritten

/-- The stored seeds and the counters of the client are below the wrap. -/
structure Low (u : Uuid) (d : Scene OpPc) : Prop where
  seeds : ∀ v ∈ viewsOf u d.backend, ∀ cfg, v.seqConfig = some cfg → StripeFits cfg.position
  counters : ∀ q ∈ d.shared.seqs, StripeFits q.position

/-- The end of the latest view is past every position that was used. -/
theorem unused_of_views (u : Uuid) (d : Scene OpPc)
    (hfit : ∀ v ∈ viewsOf u d.backend, StripeFits v.objectMap.limit) :
    ∃ bound, StripeFits bound ∧ Unused u bound d := by
  cases hlast : (viewsOf u d.backend).getLast? with
  | none =>
    refine ⟨0, by decide, fun q _ => ?_⟩
    simp only [positionSlot, hlast]
  | some v =>
    refine ⟨v.objectMap.limit, hfit v (List.mem_of_getLast? hlast), fun q hq => ?_⟩
    simp only [positionSlot, hlast, ObjectMap.map_unmapped hq]

theorem done_step (h : d.Done) (hs : s.caller.step d turn = some d') : d'.Done := by
  obtain ⟨result, hdone⟩ := h
  cases turn with
  | caller =>
    simp only [Caller.step, caller_run, hdone, Request.run_done] at hs
    cases hs
  | refresh => exact ⟨result, (Caller.step_refresh hs).2.trans hdone⟩

/-- **Step lemma.**  An append uses a position only when it returns. -/
theorem Live.unused_step (h : s.Live u name d) (hr : s.request = .append data)
    (hs : s.caller.step d turn = some d') (hrun : ¬ d'.Done) (hfree : Unused u bound d) :
    Unused u bound d' := by
  have hsame := h.still_step (fun p heq => by rw [hr] at heq; cases heq) hs hrun
  have hlog := h.facts.log
  obtain ⟨w, cid, tid, horderly, hshows⟩ := h
  obtain ⟨w', hstep, hshows'⟩ := hshows.step hs
  have hkept := (horderly.toInv.step hstep).2
  rw [hshows.backend, hshows'.backend] at hkept
  intro q hq
  rw [hkept.positionSlot_eq hlog (fun oid => (hsame q).slot oid)]
  exact hfree q hq

/-- **Step lemma.**  The views of an operation have the seeds of the views before them. -/
theorem Live.seeds_step (h : s.Live u name d) (hlow : Low u d)
    (hs : s.caller.step d turn = some d') :
    ∀ v ∈ viewsOf u d'.backend, ∀ cfg, v.seqConfig = some cfg → StripeFits cfg.position := by
  obtain ⟨w, cid, tid, horderly, hshows⟩ := h
  obtain ⟨w', hstep, hshows'⟩ := hshows.step hs
  rw [← hshows'.backend]
  have hseeds := hlow.seeds
  rw [← hshows.backend] at hseeds
  -- the configurations after the step are those of before, unless a client is elected
  intro v hv cfg hcfg
  cases horderly.toInv.views_step hstep with
  | same heq => exact hseeds v (heq ▸ hv) cfg hcfg
  | copied v₁ v' hv₁ heq hsame =>
    rw [heq] at hv
    rcases List.mem_append.mp hv with hv | hv
    · exact hseeds v hv cfg hcfg
    · rw [List.mem_singleton.mp hv, hsame] at hcfg
      exact hseeds v₁ hv₁.mem cfg hcfg
  -- the caller proposes no sequencer
  | elected _ _ c t _ _ _ _ _ _ ha hc ht _ hpc =>
    cases ha
    exact absurd hpc (not_opener hshows hc ht _)

/-- **Step lemma.**  A new sequencer starts at a stored seed. -/
theorem Live.low_step (h : s.Live u name d) (hlow : Low u d) (hok : s.Undrawn d turn)
    (hs : s.caller.step d turn = some d') : Low u d' := by
  refine ⟨h.seeds_step hlow hs, ?_⟩
  have hsequels := hok.2 d' hs
  cases turn with
  | caller =>
    simp only [Caller.step, caller_run] at hs
    split at hs
    · cases hs
      exact hlow.counters
    · next sh pc hm =>
      cases hs
      rcases Request.run_memory hm with hquiet | ⟨_, _, i, seq, -, -, hdraw⟩
      · exact hquiet.seqs ▸ hlow.counters
      · -- a draw changes its sequencer
        have hkept := hsequels i seq hdraw.found
        rw [hdraw.shared, List.getElem?_set_self (lt_of_getElem?_eq_some hdraw.found)] at hkept
        have heq := congrArg (Option.map Sequencer.position) hkept
        simp [Sequencer.draw] at heq
    · cases hs
  | refresh =>
    have hblob := h.facts.refresh
    simp only [Caller.step] at hs
    split at hs
    · cases hs
      exact hlow.counters
    · next sh pc hm =>
      cases hs
      rcases refreshEntry_memory hm with hquiet | ⟨epoch, blob, hpc, hi⟩
      · exact hquiet.seqs ▸ hlow.counters
      · rw [hpc] at hblob
        obtain ⟨view, seqs, seq, hdecode, hat, rfl⟩ := hi.view
        obtain ⟨view', hdecode', hview⟩ := hblob
        rw [hdecode] at hdecode'
        cases hdecode'
        rcases attachSequencer_cases hat with ⟨rfl, -⟩ | ⟨_, _, _, _, -, -, -, -, -, -, rfl, -⟩ |
          ⟨cfg, hcfg, -, rfl, -⟩
        · exact hlow.counters
        · exact hlow.counters
        · intro q hq
          rcases List.mem_append.mp hq with hq | hq
          · exact hlow.counters q hq
          · rw [List.mem_singleton.mp hq]
            exact hlow.seeds view hview.mem cfg hcfg
    · cases hs

theorem Can.low (h : s.Can P d) (hlive : s.Live u name d) (hlow : Low u d) :
    s.Can (fun d' => P d' ∧ Low u d') d := by
  obtain ⟨d', hrun, hP⟩ := h
  have hkeeps : s.Live u name d' ∧ Low u d' :=
    hrun.invariant (I := fun d => s.Live u name d ∧ Low u d)
      (fun _ _ _ hI hok hs => ⟨hI.1.step hs, hI.1.low_step hI.2 hok hs⟩) ⟨hlive, hlow⟩
  exact ⟨d', hrun, hP, hkeeps.2⟩

/-- What an append that goes on keeps along its way. -/
theorem Can.along (h : s.Can P d) (hlive : s.Live u name d) (hr : s.request = .append data)
    (hfree : Unused u bound d) :
    s.Can (fun d' => P d' ∧ d.shared.Sequels d'.shared ∧ (¬ d'.Done → Unused u bound d')) d := by
  obtain ⟨d', hrun, hP, hseqs⟩ := h.sequels
  have hkeeps : s.Live u name d' ∧ (¬ d'.Done → Unused u bound d') :=
    hrun.invariant (I := fun d => s.Live u name d ∧ (¬ d.Done → Unused u bound d))
      (fun _ _ _ hI _ hs => ⟨hI.1.step hs, fun hrun =>
        hI.1.unused_step hr hs hrun (hI.2 fun hdone => hrun (done_step hdone hs))⟩)
      ⟨hlive, fun _ => hfree⟩
  exact ⟨d', hrun, hP, hseqs, hkeeps.2⟩

/-- The append lost the position to another operation. -/
structure Refused (s : Solo) (u : Uuid) (name : String) (p : Nat) (d : Scene OpPc) : Prop where
  ready : s.Ready u name d
  op : d.pc = .start p none
  taken : positionSlot u d.backend p ≠ .unwritten

theorem Refused.not_done (h : s.Refused u name p d) : ¬ d.Done := not_done_start h.op

/-- The write, when the object exists. -/
theorem Ready.writes_created (h : s.Ready u name d) (hr : s.request = .append data)
    (hop : d.pc = .io v (Stripe.oidAt t i) p pe) (hv : d.Holds u v)
    (hexists : objectAt u d.backend t i ≠ none) :
    s.Can (fun d' => d'.Done ∨ s.Refused u name p d') d := by
  have hfacts := h.live.facts
  have hheld := hfacts.held hv.view
  have hexec : ∀ {x}, d.backend.write (dataOid u t i) data v.epoch p = x →
      d.backend.exec (.write (s.lb.oid (Stripe.oidAt t i)) data v.epoch p) = x := by
    rw [hfacts.handleOk.oid]
    exact id
  rcases write_created hfacts.log hheld.1 hexists data p with ⟨b, hw⟩ | ⟨hw, htaken⟩ | ⟨-, hlt⟩
  · exact h.call (by rw [hop, append_run hr]; rfl) (hexec hw) fun _ => .here (Or.inl ⟨_, rfl⟩)
  · refine h.call (by rw [hop, append_run hr]; rfl) (hexec hw) fun h₁ =>
      .here (Or.inr ⟨h₁, rfl, ?_⟩)
    -- the slot of the object is the one of the position
    have hpc := hfacts.op
    rw [hop] at hpc
    obtain ⟨-, -, -, t', i', last, hoid, hmap⟩ := hpc
    obtain ⟨rfl, rfl⟩ := oidAt_injective hoid
    obtain ⟨o, ho⟩ := Option.ne_none_iff_exists'.mp hexists
    rw [RAMBackend.slotAt_of_logAt ho] at htaken
    show positionSlot u d.backend p ≠ .unwritten
    rw [hfacts.log.positionSlot_of_map hheld hmap ho]
    exact htaken
  · have hle := h.calm t i
    have hlatest := hv.latest
    omega

theorem Ready.writes (h : s.Ready u name d) (hr : s.request = .append data)
    (hop : d.pc = .io v (Stripe.oidAt t i) p pe) (hv : d.Holds u v) :
    s.Can (fun d' => d'.Done ∨ s.Refused u name p d') d := by
  rcases h.checkIo hv t i with ⟨o, -, ho⟩ | ⟨hio, hnone⟩
  · exact h.writes_created hr hop hv (by rw [ho]; exact Option.some_ne_none _)
  · -- the append creates the object and goes on with the write
    rw [← h.live.facts.handleOk.oid] at hio
    have hexec : d.backend.exec (.write (s.lb.oid (Stripe.oidAt t i)) data v.epoch p) =
        (.error .enoent, d.backend) := by
      simp only [RAMBackend.exec, RAMBackend.write, hio]
    refine h.call (by rw [hop, append_run hr]; rfl) hexec fun h₁ => ?_
    obtain ⟨b, hseal, hviews, hsome⟩ := h.live.facts.creates hv.view hnone
    exact h₁.call (by rw [append_run hr]; rfl) hseal fun h₂ =>
      h₂.writes_created hr rfl (hv.of_views hviews) hsome

/-- The top of the loop of an append whose client is the sequencer. -/
theorem append_start (hr : s.request = .append data) (hop : d.pc = .start p pe)
    (hv : d.shared.view = some v) {k : Nat} (hk : v.seq = some k) (hq : d.shared.seqs[k]? = some q) :
    s.request.run s.options s.lb d.shared d.pc = some (if pe = some q.epoch
      then mapPosition d.shared v p pe else .memory d.shared (.sequence v k)) := by
  rw [hop, append_run hr]
  simp only [appendOp, Shared.withView, hv, hk, hq]

/-- An append whose client lost the sequencer returns. -/
theorem Ready.finishes_lost (h : s.Ready u name d) (hr : s.request = .append data)
    (hop : d.pc = .start p pe) (hv : d.shared.view = some v) (hk : v.seq = none) :
    s.Finishes d := by
  have hm : s.request.run s.options s.lb d.shared d.pc =
      some (.memory d.shared (.done (.error .eio))) := by
    rw [hop, append_run hr]
    simp only [appendOp, Shared.withView, hv, hk]
  exact h.access hm fun _ => finishes_done rfl

/-- The append returned, or it is to draw the next position. -/
def Tried (s : Solo) (u : Uuid) (name : String) (p bound : Nat) (q : Sequencer) (d : Scene OpPc) :
    Prop :=
  d.Done ∨ (s.Refused u name p d ∧ d.shared.seqs[0]? = some q ∧ Unused u bound d)

/-- From the lookup of a mapped position to the write. -/
theorem Ready.tries_mapped (h : s.Ready u name d) (hr : s.request = .append data)
    (hl : Looked v p pe d.pc) (hv : d.Holds u v) (hmap : Maps v p)
    (hq : d.shared.seqs[0]? = some q) (hfree : Unused u bound d) :
    s.Can (s.Tried u name p bound q) d := by
  refine h.reaches_io (append_other hr) hv hl hmap ?_
  intro d₁ t i last hmap₁ h₁ hop₁ hv₁ hb₁ hseqs₁
  have hfree₁ : Unused u bound d₁ := by
    unfold Unused
    rw [hb₁]
    exact hfree
  refine ((h₁.writes hr hop₁ hv₁).along h₁.live hr hfree₁).imp ?_
  rintro d₂ ⟨hdone | href, hseq, hkeeps⟩
  · exact Or.inl hdone
  · exact Or.inr ⟨href, hseq 0 q (hseqs₁ ▸ hq), hkeeps href.not_done⟩

/-- **One position**: the append writes it, or finds it taken. -/
theorem Ready.tries (h : s.Ready u name d) (hr : s.request = .append data) (hp : StripeFits p)
    (hl : Looked v p (some q.epoch) d.pc) (hv : d.Holds u v) (hq : d.shared.seqs[0]? = some q)
    (hfree : Unused u bound d) : s.Can (s.Tried u name p bound q) d := by
  have hother := append_other hr
  by_cases hmap : Maps v p
  · exact h.tries_mapped hr hl hv hmap hq hfree
  refine h.looked hother hl (fun hop _ => ?_) ?_
  · refine ((h.grows hother hp hv hop hmap).along h.live hr hfree).bind ?_
    rintro d₁ ⟨⟨h₁, hop₁, v₁, hv₁, hmap₁⟩, hseq₁, hkeeps₁⟩
    have hfree₁ : Unused u bound d₁ := hkeeps₁ (not_done_start hop₁)
    have hq₁ : d₁.shared.seqs[0]? = some q := hseq₁ 0 q hq
    cases hk : v₁.seq with
    | none => exact (h₁.finishes_lost hr hop₁ hv₁.view hk).imp fun _ hdone => Or.inl hdone
    | some k =>
      -- the new view has the sequencer that gave out the position
      obtain ⟨rfl, -, -⟩ := h₁.live.facts.seqs.attached v₁ k hv₁.view hk
      have hm₁ := append_start hr hop₁ hv₁.view hk hq₁
      rw [if_pos rfl] at hm₁
      refine h₁.looks hm₁ (h₁.live.facts.smallView hv₁.view) fun pc hlooked h₂ => ?_
      exact h₂.tries_mapped hr hlooked (v := v₁) ⟨hv₁.view, hv₁.latest⟩ hmap₁ hq₁ hfree₁
  · intro _ oid last hmapped
    exact absurd ⟨oid, last, hmapped⟩ hmap

/-- The top of the loop of an append without a position: with the latest view it is about to draw one,
    unless its client lost the sequencer. -/
theorem Ready.draws (h : s.Ready u name d) (hr : s.request = .append data)
    (hop : d.pc = .start p none) (hfree : Unused u bound d)
    (hP : ∀ d' v q, s.Ready u name d' → d'.pc = .sequence v 0 → d'.Holds u v →
      d'.shared.seqs[0]? = some q → d.shared.Sequels d'.shared → Unused u bound d' →
      s.Returns d') : s.Returns d := by
  refine Can.returns ((h.freshens (not_done_start hop)).along h.live hr hfree) ?_
  rintro d₁ ⟨⟨h₁, hop₁, v, hv⟩, hseq, hkeeps⟩
  rw [hop] at hop₁
  -- a view without a sequencer ends the append
  cases hk : v.seq with
  | none => exact (h₁.finishes_lost hr hop₁ hv.view hk).returns
  | some k =>
    obtain ⟨rfl, -, hne⟩ := h₁.live.facts.seqs.attached v k hv.view hk
    obtain ⟨q, hq⟩ : ∃ q, d₁.shared.seqs[0]? = some q :=
      ⟨_, List.getElem?_eq_getElem (List.length_pos_iff.mpr hne)⟩
    -- the first look is at the view that the caller has
    have hm := append_start hr hop₁ hv.view hk hq
    rw [if_neg (by rintro ⟨⟩)] at hm
    have hreach : s.Can (fun d' => s.Ready u name d' ∧
        d' = { d₁ with pc := .sequence v 0 }) d₁ := h₁.access hm fun h₂ => .here ⟨h₂, rfl⟩
    refine hreach.returns ?_
    rintro d₂ ⟨h₂, rfl⟩
    exact hP _ v q h₂ rfl ⟨hv.view, hv.latest⟩ hq hseq (hkeeps (not_done_start hop₁))

/-- A draw, and the lookup of the position. -/
theorem Ready.drawn (h : s.Ready u name d) (hr : s.request = .append data)
    (hop : d.pc = .sequence v 0) (hq : d.shared.seqs[0]? = some q) (hfit : StripeFits q.position)
    (hP : ∀ d', s.Ready u name d' → Looked v q.position (some q.epoch) d'.pc →
      d'.backend = d.backend → d'.shared.view = d.shared.view →
      d'.shared.seqs = d.shared.seqs.set 0 q.draw → s.Returns d') : s.Returns d := by
  have hheld : Held u d.backend v := by
    have hpc := h.live.facts.op
    rw [hop, hr] at hpc
    exact hpc
  -- the counter has not wrapped
  have htail : q.tail = q.position := by
    refine Nat.mod_eq_of_lt (Nat.lt_of_lt_of_le ?_ hfit)
    exact Nat.lt_add_of_pos_right (by decide)
  obtain ⟨pc, hmap, hlooked⟩ := mapPosition_looked (h.live.facts.small v.view hheld.mem)
    { d.shared with seqs := d.shared.seqs.set 0 q.draw } q.position (some q.epoch)
  have hm : s.request.run s.options s.lb d.shared d.pc =
      some (.memory { d.shared with seqs := d.shared.seqs.set 0 q.draw } pc) := by
    rw [hop, append_run hr]
    simp only [appendOp, hq, htail, hmap]
  have hs : s.caller.step d .caller = some { d with
      shared := { d.shared with seqs := d.shared.seqs.set 0 q.draw }, pc := pc } := by
    simp only [Caller.step, caller_run, hm]
  -- the bound on expansions does not concern this step
  refine Lib.Can.next ?_ hs (hP _ ⟨h.live.step hs, h.calm, h.idle⟩ hlooked rfl rfl rfl)
  rintro - p pe n hpc
  rw [hop] at hpc
  cases hpc

/-- An append that draws its positions meets an unused one. -/
theorem Ready.returns_sequence (h : s.Ready u name d) (hr : s.request = .append data)
    (hop : d.pc = .sequence v 0) (hv : d.Holds u v) (hq : d.shared.seqs[0]? = some q)
    (hfit : StripeFits q.position) (hbound : StripeFits bound) (hfree : Unused u bound d) :
    s.Returns d := by
  -- every position that is found taken is below the bound, and the next one is larger
  induction hn : bound - q.position using Nat.strong_induction_on generalizing d v q with
  | _ n ih =>
    refine h.drawn hr hop hq hfit fun d₁ h₁ hl₁ hb₁ hview₁ hseqs₁ => ?_
    have hv₁ : d₁.Holds u v := ⟨hview₁.trans hv.view, by rw [hb₁]; exact hv.latest⟩
    have hfree₁ : Unused u bound d₁ := by
      unfold Unused
      rw [hb₁]
      exact hfree
    have hq₁ : d₁.shared.seqs[0]? = some q.draw := by
      rw [hseqs₁]
      exact List.getElem?_set_self (lt_of_getElem?_eq_some hq)
    refine (h₁.tries (q := q.draw) hr hfit hl₁ hv₁ hq₁ hfree₁).returns ?_
    rintro d₂ (hdone | ⟨href, hq₂, hfree₂⟩)
    · exact .here hdone
    · have hlt : q.position < bound := by
        by_contra hge
        exact href.taken (hfree₂ _ (by omega))
      refine href.ready.draws hr href.op hfree₂ fun d₃ v₃ q₃ h₃ hop₃ hv₃ hq₃ hseq₃ hfree₃ => ?_
      have hq₃' := hseq₃ 0 _ hq₂
      rw [hq₃] at hq₃'
      cases hq₃'
      have hnext : q.draw.position = q.position + 1 := rfl
      refine ih _ ?_ h₃ hop₃ hv₃ hq₃ ?_ hfree₃ rfl
      · omega
      · exact Nat.le_trans (Nat.add_le_add_right hlt _) hbound

/-- An append at the top of its loop. -/
theorem Ready.returns_start (h : s.Ready u name d) (hr : s.request = .append data)
    (hp : StripeFits p) (hop : d.pc = .start p pe) (hlow : Low u d) (hbound : StripeFits bound)
    (hfree : Unused u bound d) : s.Returns d := by
  have hnd := not_done_start hop
  refine (((h.freshens hnd).low h.live hlow).along h.live hr hfree).returns ?_
  rintro d₁ ⟨⟨⟨h₁, hop₁, v, hv₁⟩, hlow₁⟩, -, hkeeps₁⟩
  rw [hop] at hop₁
  have hfree₁ : Unused u bound d₁ := hkeeps₁ (not_done_start hop₁)
  cases hk : v.seq with
  | none => exact (h₁.finishes_lost hr hop₁ hv₁.view hk).returns
  | some k =>
    obtain ⟨rfl, -, hne⟩ := h₁.live.facts.seqs.attached v k hv₁.view hk
    obtain ⟨q, hq⟩ : ∃ q, d₁.shared.seqs[0]? = some q :=
      ⟨_, List.getElem?_eq_getElem (List.length_pos_iff.mpr hne)⟩
    have hm := append_start hr hop₁ hv₁.view hk hq
    have hfit : StripeFits q.position := hlow₁.counters q (List.mem_of_getElem? hq)
    split at hm
    · next heq =>
      -- the position that the append holds may be taken
      subst heq
      have htries : s.Can (s.Tried u name p bound q) d₁ :=
        h₁.looks hm (h₁.live.facts.smallView hv₁.view) fun pc hlooked h₂ =>
          h₂.tries hr hp hlooked (v := v) ⟨hv₁.view, hv₁.latest⟩ hq hfree₁
      refine htries.returns ?_
      rintro d₂ (hdone | ⟨href, hq₂, hfree₂⟩)
      · exact .here hdone
      · refine href.ready.draws hr href.op hfree₂ fun d₃ v₃ q₃ h₃ hop₃ hv₃ hq₃ hseq₃ hfree₃ => ?_
        have hq₃' := hseq₃ 0 _ hq₂
        rw [hq₃] at hq₃'
        cases hq₃'
        exact h₃.returns_sequence hr hop₃ hv₃ hq₃ hfit hbound hfree₃
    · have hreach : s.Can (fun d' => s.Ready u name d' ∧
          d' = { d₁ with pc := .sequence v 0 }) d₁ := h₁.access hm fun h₂ => .here ⟨h₂, rfl⟩
      refine hreach.returns ?_
      rintro d₂ ⟨h₂, rfl⟩
      exact h₂.returns_sequence hr rfl (v := v) ⟨hv₁.view, hv₁.latest⟩ hq hfit hbound hfree₁

end

end Solo

/-! ## All operations -/

/-- The next positions that the client draws are a stripe away from the last 64-bit position, as is
    the end of the log. -/
structure DrawsFit (u : Uuid) (b : Store) (sh : Shared) : Prop where
  counters : ∀ q ∈ sh.seqs, StripeFits (q.position + 1)
  views : ∀ v ∈ viewsOf u b, StripeFits v.objectMap.limit ∧
    ∀ cfg, v.seqConfig = some cfg → StripeFits cfg.position

instance (u : Uuid) (b : Store) (sh : Shared) : Decidable (DrawsFit u b sh) :=
  decidable_of_iff ((∀ q ∈ sh.seqs, StripeFits (q.position + 1)) ∧
    ∀ v ∈ viewsOf u b, StripeFits v.objectMap.limit ∧ ∀ cfg ∈ v.seqConfig, StripeFits cfg.position)
    ⟨fun h => ⟨h.1, h.2⟩, fun h => ⟨h.counters, h.views⟩⟩

theorem StripeFits.of_succ {p : Nat} (h : StripeFits (p + 1)) : StripeFits p :=
  Nat.le_trans (Nat.add_le_add_right (Nat.le_succ p) _) h

namespace Solo

section

variable {s : Solo} {u : Uuid} {name : String} {d : Scene OpPc} {data : String} {bound : Nat}

/-- An append that is not about to draw a position. -/
theorem Ready.returns_undrawn (h : s.Ready u name d) (hr : s.request = .append data)
    (hp : ∀ p, d.pc.target? = some p → StripeFits p) (hdraw : ∀ v i, d.pc ≠ .sequence v i)
    (hlow : Low u d) (hbound : StripeFits bound) (hfree : Unused u bound d) : s.Returns d := by
  have hsettles : s.Settles u name d := h.settles hp fun _ _ => hdraw
  refine ((Can.low hsettles h.live hlow).along h.live hr hfree).returns ?_
  rintro d₁ ⟨⟨⟨h₁, hdone | ⟨p, pe, hop, hfit⟩⟩, hlow₁⟩, -, hkeeps₁⟩
  · exact .here hdone
  · exact h₁.returns_start hr hfit hop hlow₁ hbound (hkeeps₁ (not_done_start hop))

/-- An append, wherever it is. -/
theorem Ready.returns_append (h : s.Ready u name d) (hr : s.request = .append data)
    (hp : ∀ p, d.pc.target? = some p → StripeFits p)
    (hnext : ∀ v i q, d.pc = .sequence v i → d.shared.seqs[i]? = some q →
      StripeFits (q.position + 1))
    (hlow : Low u d) (hbound : StripeFits bound) (hfree : Unused u bound d) : s.Returns d := by
  by_cases hdraw : ∃ v i, d.pc = .sequence v i
  · -- the position that is drawn first goes with a view that may be out of date
    obtain ⟨v, i, hop⟩ := hdraw
    have hlt := h.live.facts.backed.sequencer v i hop
    have hone := h.live.facts.seqs.one
    obtain rfl : i = 0 := by omega
    have hq : d.shared.seqs[0]? = some d.shared.seqs[0] := List.getElem?_eq_getElem hlt
    have hfit := hnext v 0 _ hop hq
    refine h.drawn hr hop hq hfit.of_succ fun d₁ h₁ hl₁ hb₁ _ hseqs₁ => ?_
    refine h₁.returns_undrawn hr ?_ hl₁.not_sequence ⟨by rw [hb₁]; exact hlow.seeds, ?_⟩ hbound ?_
    · intro p hp
      cases hl₁.target.symm.trans hp
      exact hfit.of_succ
    · intro q hq₁
      rw [hseqs₁] at hq₁
      rcases List.mem_or_eq_of_mem_set hq₁ with hold | rfl
      · exact hlow.counters q hold
      · exact hfit
    · unfold Unused
      rw [hb₁]
      exact hfree
  · exact h.returns_undrawn hr hp (fun v i hop => hdraw ⟨v, i, hop⟩) hlow hbound hfree

/-- An operation that draws no position. -/
theorem Ready.finishes (h : s.Ready u name d) (hr : ∀ data, s.request ≠ .append data)
    (hp : ∀ p, d.pc.target? = some p → StripeFits p) : s.Finishes d := by
  refine Can.bind (h.settles hp fun data hr' => absurd hr' (hr data)) ?_
  rintro d₁ ⟨h₁, hdone | ⟨p, pe, hop, hfit⟩⟩
  · exact .here hdone
  · cases hr' : s.request with
    | append data => exact absurd hr' (hr data)
    | read q => exact h₁.finishes_positional hfit (loops_read hr') answers_read hop
    | fill q => exact h₁.finishes_positional hfit (loops_fill hr') answers_fill hop
    | trim q => exact h₁.finishes_positional hfit (loops_trim hr') answers_trim hop
    | trimTo q =>
      have hpc := h₁.live.facts.op
      rw [hop, hr'] at hpc
      obtain rfl : q = p := hpc
      exact h₁.finishes_trimTo hr' hfit hop
    | checkTail => exact h₁.finishes_checkTail hr' hop

/-- **Run lemma.**  The operation returns, unless the refresh thread of its client was overtaken. -/
theorem Live.returns (h : s.Live u name d) (hcalm : Calm u d.backend)
    (hlive : ¬ Dies d.shared (.refresh d.refresh))
    (hp : ∀ p, d.pc.target? = some p → StripeFits p)
    (hdraws : ∀ data, s.request = .append data → DrawsFit u d.backend d.shared) : s.Returns d := by
  by_cases hdone : d.Done
  · exact .here hdone
  -- the refresh thread ends its pass, and from then on makes passes when it is waited for
  have hrests := h.rests hdone hlive
  have hready : ∀ {d₁}, s.Live u name d₁ → d₁.refresh = .idle → d₁.backend = d.backend →
      s.Ready u name d₁ := fun h₁ hidle hb₁ => ⟨h₁, by rw [hb₁]; exact hcalm, hidle⟩
  cases hr : s.request with
  | append data =>
    have hfits := hdraws data hr
    have hlow : Low u d :=
      ⟨fun v hv => (hfits.views v hv).2, fun q hq => (hfits.counters q hq).of_succ⟩
    obtain ⟨bound, hbound, hfree⟩ := unused_of_views u d fun v hv => (hfits.views v hv).1
    refine (hrests.sequels.low h hlow).returns ?_
    rintro d₁ ⟨⟨⟨h₁, hidle, hop₁, hb₁⟩, hsequels⟩, hlow₁⟩
    refine (hready h₁ hidle hb₁).returns_append hr (by rw [hop₁]; exact hp) ?_ hlow₁ hbound ?_
    · intro v i q hop hq
      rw [hop₁] at hop
      have hlt := h.facts.backed.sequencer v i hop
      have hold := hsequels i _ (List.getElem?_eq_getElem hlt)
      rw [hq] at hold
      cases hold
      exact hfits.counters _ (List.getElem_mem hlt)
    · unfold Unused
      rw [hb₁]
      exact hfree
  | _ =>
    refine hrests.returns ?_
    rintro d₁ ⟨h₁, hidle, hop₁, hb₁⟩
    refine ((hready h₁ hidle hb₁).finishes ?_ (by rw [hop₁]; exact hp)).returns
    intro data hr'
    rw [hr] at hr'
    cases hr'

/-- The steps of a scene that compute no map past the last position are such steps of the world. -/
theorem bounded_of_shows {w : World} {cid tid : Nat} {turn : Turn}
    (h : s.caller.Shows cid tid w d) (hok : s.InRange d turn) :
    Bounded w (.run cid (turn.thread tid)) := by
  refine ⟨trivial, ?_⟩
  obtain ⟨-, -, c, hc, hshown⟩ := h
  -- the bound concerns the step that starts an expansion
  intro c' hc' t ht p hexp v hv newView hnew
  rw [hc] at hc'
  cases hc'
  have hoptions : c.options = s.options := congrArg Setting.options hshown.setting
  rw [hoptions] at hnew
  have ht : c.threads[turn.thread tid]? = some t := ht
  cases turn with
  | caller =>
    obtain ⟨t₁, ht₁, hpc⟩ := hshown.caller
    cases ht.symm.trans ht₁
    have hpc : t.pc = .op s.request d.pc := hpc
    rw [hpc] at hexp
    generalize hop : d.pc = pc at hexp
    cases pc with
    | expand q pe pc =>
      cases pc with
      | start n =>
        cases hexp
        exact hok rfl p pe n hop v (hshown.shared ▸ hv) newView hnew
      | _ => cases hexp
    | _ => cases hexp
  -- the refresh thread expands nothing
  | refresh =>
    obtain ⟨t₁, ht₁, hpc⟩ := hshown.refresh
    cases ht.symm.trans ht₁
    rw [hpc] at hexp
    cases hexp

end

end Solo

/-- **Every operation can return.**  In every state of every run, for a client that is alive and
    whatever its other threads and the other clients are in the middle of: if no object is sealed
    for a view that does not exist, the refresh thread was not overtaken, and the positions are a
    stripe away from the last 64-bit one, then the operation returns after some steps of its own
    thread and of the refresh thread, none of which computes a map past the last position. -/
theorem operation_can_return {u : Uuid} {name : String} {options : Options} {host : Host}
    {w w₀ : World} {cid tid : Nat} {c : Client} {t : Thread} {r : Request} {pc : OpPc}
    (h₀ : World.init name u options host = some w₀) (hfits : options.Fits)
    (h : Lib.Run World.step Bounded w₀ w) (hc : w.clients[cid]? = some c)
    (halive : c.shared.aborted = false) (ht : c.threads[tid]? = some t) (hpc : t.pc = .op r pc)
    (hcalm : Calm u w.backend)
    (hlive : ∀ t ∈ c.threads, ∀ rpc, t.pc = .refresh rpc → ¬ Dies c.shared t.pc)
    (hp : ∀ p, pc.target? = some p → StripeFits p)
    (hdraws : ∀ data, r = .append data → DrawsFit u w.backend c.shared) :
    ∃ w' t' result, Lib.Run World.step (fun w a => Solely cid tid w a ∧ Bounded w a) w w' ∧
      w'.thread? cid tid = some t' ∧ t'.pc = .op r (.done result) := by
  -- a caller and its refresh thread, apart from the world
  have horderly := Orderly.of_run h₀ hfits (h.mono fun _ _ hok => hok.1)
  obtain ⟨s, d, hshows, rfl, -, hb, hshared, hop, t₁, ht₁, hpc₁⟩ :=
    horderly.shown hc halive ht hpc
  have hd : s.Live u name d := ⟨w, cid, tid, horderly, hshows⟩
  have hdies := hlive t₁ ht₁ d.refresh hpc₁
  rw [hpc₁, ← hshared] at hdies
  rw [← hb] at hcalm hdraws
  rw [← hshared] at hdraws
  rw [← hop] at hp
  -- it returns there, and the same steps are made in the world
  obtain ⟨d', hrun, result, hdone⟩ := hd.returns hcalm hdies hp hdraws
  obtain ⟨w', hrun', -, -, c', hc', hshown⟩ :=
    hshows.leads (I := fun _ => True) trivial (fun _ _ _ _ _ _ => trivial)
      (fun _ _ _ _ => Solo.bounded_of_shows) hrun
  obtain ⟨t', ht', hpc'⟩ := hshown.caller
  have hpc' : t'.pc = .op s.request d'.pc := hpc'
  rw [hdone] at hpc'
  exact ⟨w', t', result, hrun', World.thread?_eq_some.mpr ⟨c', hc', ht'⟩, hpc'⟩

/-- The stored objects are enough to look at. -/
theorem Calm.of_keys {u : Uuid} {b : Store}
    (h : ∀ oid ∈ b.objects.keys, b.epochAt oid ≤ latestEpoch u b) : Calm u b := by
  intro t i
  by_cases hmem : dataOid u t i ∈ b.objects.keys
  · exact h _ hmem
  · have hnone : b.objects.lookup (dataOid u t i) = none := AList.lookup_eq_none.mpr hmem
    unfold objectEpoch RAMBackend.epochAt RAMBackend.logAt
    rw [hnone]
    exact Nat.zero_le _

set_option maxRecDepth 100000 in
/-- A second append after the first one, which created an object. -/
theorem operation_can_return_sample :
    ∃ w, Sample.worldIf Bounded (Sample.appended ++ [.invoke 0 (.append "b")]) = some w ∧
      ∃ w' t' result, Lib.Run World.step (fun w a => Solely 0 5 w a ∧ Bounded w a) w w' ∧
        w'.thread? 0 5 = some t' ∧ t'.pc = .op (.append "b") (.done result) := by
  -- the state is evaluated, and then each condition is read off
  have hrun : ((Sample.worldIf Bounded (Sample.appended ++ [.invoke 0 (.append "b")])).bind fun w =>
      w.clients[0]?.bind fun c => c.threads[5]?.map fun t =>
        (t.pc, c.shared.aborted, c.threads.all (fun t => t.pc.fetched?.isNone),
          w.backend.objects.keys.all (fun oid =>
            w.backend.epochAt oid ≤ latestEpoch Sample.uuid w.backend),
          decide (DrawsFit Sample.uuid w.backend c.shared))) =
      some (.op (.append "b") (.start 0 none), false, true, true, true) := by decide +kernel
  obtain ⟨w, hw, hrun⟩ := Option.bind_eq_some_iff.mp hrun
  obtain ⟨c, hc, hrun⟩ := Option.bind_eq_some_iff.mp hrun
  obtain ⟨t, ht, heq⟩ := Option.map_eq_some_iff.mp hrun
  simp only [Prod.mk.injEq, List.all_eq_true] at heq
  obtain ⟨hpc, halive, hfetched, hepochs, hdraws⟩ := heq
  obtain ⟨w₀, h₀, h⟩ := Sample.runs hw
  refine ⟨w, hw, operation_can_return h₀ (by decide) h hc halive ht hpc ?_ ?_ ?_ ?_⟩
  · exact .of_keys fun oid hoid => of_decide_eq_true (hepochs oid hoid)
  · intro t' ht' rpc hrpc hdies
    have hnone := hfetched t' ht'
    rw [hrpc] at hdies hnone
    cases hdies with
    | overtaken hf => simp [hf] at hnone
  · rintro p ⟨⟩
    decide
  · rintro data -
    exact of_decide_eq_true hdraws

end ZLog
