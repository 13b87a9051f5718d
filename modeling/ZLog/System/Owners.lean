import ZLog.System.Views
import ZLog.Client.Control

/-!
# Sequencer configurations and their owners

A client becomes the sequencer by a stored view with its token.  Tokens end in a number that the
backend hands out once, so a configuration with the token of a client was proposed by that
client; and a client proposes until it succeeds once.

## Main results

- `Inv.views_step`: how the stored views change in a step.
- `Inv.client_step`: how a client changes in a step.
- `Owners.of_reaches`: every configuration has an owner, and a client owns at most one.
-/

namespace ZLog

/-! ## Tokens -/

/-- `c_str()` has no NUL in it. -/
theorem nulFree_cStr (s : String) : '\x00' ∉ (cStr s).toList := by
  intro h
  unfold cStr at h
  rw [String.toList_ofList] at h
  simpa using List.mem_takeWhile_imp h

/-- A stored token that reads as the token of a client was proposed by a client with its number. -/
theorem cStr_makeToken {name hoid : String} {host host' : Host} {id id' : Nat}
    (h : cStr (makeToken name hoid host.text id) = makeToken name hoid host'.text id') :
    id = id' := by
  -- a NUL in the name or the object id would be in the right-hand side too
  have hfree : '\x00' ∉ (makeToken name hoid host'.text id').toList := h ▸ nulFree_cStr _
  have htok : '\x00' ∉ (makeToken name hoid host.text id).toList := by
    simp only [makeToken, String.toList_append, List.mem_append, not_or] at hfree ⊢
    obtain ⟨⟨⟨⟨⟨⟨⟨h₁, h₂⟩, h₃⟩, h₄⟩, h₅⟩, -⟩, h₆⟩, -⟩ := hfree
    exact ⟨⟨⟨⟨⟨⟨⟨h₁, h₂⟩, h₃⟩, h₄⟩, h₅⟩, host.nulFree⟩, h₆⟩, nulFree_toString id⟩
  rw [cStr_of_nulFree htok] at h
  exact makeToken_injective h

section

variable {u : Uuid} {name : String} {b b' : Store} {w w' : World} {a : Action} {c c' : Client}
  {cid : Nat}

/-! ## The views in a step -/

/-- The arguments of a proposal. -/
def Call.proposal? : {α : Type} → Call Fbs.View α → Option (String × Nat × Fbs.View)
  | _, .proposeView hoid epoch view => some (hoid, epoch, view)
  | _, _ => none

/-- The view that a thread is about to propose with the configuration of an older one. -/
def Pc.proposal? : Pc → Option (VersionedView × View)
  | .expander pc => pc.proposal?
  | .op _ pc => pc.proposal?
  | _ => none

/-- Only proposals change the views. -/
theorem CallOk.viewsOf_eq {α : Type} {call : Call Fbs.View α}
    (hc : CallOk u name b call) (hp : call.proposal? = none) :
    viewsOf u (b.exec call).2 = viewsOf u b := by
  cases hc with
  | openLog => rfl
  | uniqueId =>
    -- the number of the next client is no part of the views
    show viewsOf u (b.uniqueId u.hoid).2 = _
    unfold RAMBackend.uniqueId
    rw [if_neg u.hoid_ne_empty]
    rfl
  | readViews => rfl
  | proposeView => cases hp
  | read => rfl
  -- a log object is no head object, so a change of it leaves the views
  | @write e p s i v last data hv hm =>
    show viewsOf u (b.write (dataOid u s i) data e p).2 = _
    rcases b.write_cases (dataOid u s i) data e p with ⟨err, -, hw⟩ | ⟨o, -, -, hw⟩ |
      ⟨o, -, -, hw⟩ <;> rw [hw]
    exact viewsOf_setLog ..
  | @fill e p s i v last hv hm =>
    show viewsOf u (b.fill (dataOid u s i) e p).2 = _
    rcases b.fill_cases (dataOid u s i) e p with ⟨err, -, hf⟩ | ⟨o, d, -, -, hf⟩ | ⟨o, -, -, hf⟩ |
      ⟨o, -, -, hf⟩ <;> rw [hf]
    · exact viewsOf_setLog ..
    · exact viewsOf_setLog ..
  | @trim e p s i v last hv hm =>
    show viewsOf u (b.trim (dataOid u s i) e p false false).2 = _
    rcases b.trim_cases (dataOid u s i) e p false false with ⟨-, -, ht⟩ | ⟨err, -, ht⟩ |
      ⟨o, -, -, ht⟩ <;> rw [ht]
    exact viewsOf_setLog ..
  | @trimRange e p s i v stripe full hv hs hmin hmem =>
    show viewsOf u (b.trim (dataOid u s i) e p true full).2 = _
    rcases b.trim_cases (dataOid u s i) e p true full with ⟨-, -, ht⟩ | ⟨err, -, ht⟩ |
      ⟨o, -, -, ht⟩ <;> rw [ht]
    exact viewsOf_setLog ..
  | @«seal» s i e h0 he =>
    show viewsOf u (b.seal (dataOid u s i) e).2 = _
    rcases b.seal_cases (dataOid u s i) e with ⟨-, hs⟩ | ⟨-, -, -, hs⟩ | ⟨o, -, -, hs⟩ |
      ⟨o, -, -, -, hs⟩ | ⟨-, -, hs⟩ <;> rw [hs]
    · exact viewsOf_setLog ..
    · exact viewsOf_setLog ..
  | maxPos => rfl

theorem ExpandOk.proposal {pc : ExpandPc} {curr : VersionedView} {newView : View}
    (h : ExpandOk u b pc) (hp : pc.proposal? = some (curr, newView)) :
    Held u b curr ∧ NextView curr.epoch curr.view newView ∧
      newView.seqConfig = curr.view.seqConfig := by
  cases pc with
  | propose retries curr' newView' =>
    cases hp
    obtain ⟨hv, position, options, he⟩ := h
    refine ⟨hv, .expand position options he, ?_⟩
    unfold View.expandMapping at he
    split at he
    · cases he
    · cases he
    · cases he
      rfl
  | _ => cases hp

theorem AdvanceOk.proposal {pc : AdvancePc} {curr : VersionedView} {newView : View}
    (h : AdvanceOk u b pc) (hp : pc.proposal? = some (curr, newView)) :
    Held u b curr ∧ NextView curr.epoch curr.view newView ∧
      newView.seqConfig = curr.view.seqConfig := by
  cases pc with
  | propose curr' newView' =>
    cases hp
    obtain ⟨hv, position, ha⟩ := h
    refine ⟨hv, .advance position ha, ?_⟩
    unfold View.advanceMinValidPosition at ha
    split at ha
    · cases ha
    · cases ha
      rfl
  | _ => cases hp

/-- Expansions and trims copy the configuration. -/
theorem PcOk.proposal {pc : Pc} {curr : VersionedView} {newView : View} (h : PcOk u b pc)
    (hp : pc.proposal? = some (curr, newView)) :
    Held u b curr ∧ NextView curr.epoch curr.view newView ∧
      newView.seqConfig = curr.view.seqConfig := by
  cases pc with
  | expander pc =>
    cases pc with
    | expand position pc => exact ExpandOk.proposal h hp
    | _ => cases hp
  | op r pc =>
    cases pc with
    | expand p pe pc => exact ExpandOk.proposal h.2 hp
    | advance p pc => exact AdvanceOk.proposal h.2 hp
    | _ => cases hp
  | _ => cases hp

/-- What a thread proposes: a view with the old configuration, or itself as the sequencer. -/
def Pc.Proposes (c : Client) (pc : Pc) {α : Type} (call : Call Fbs.View α) : Prop :=
  ∀ hoid epoch blob, call.proposal? = some (hoid, epoch, blob) →
    (∃ curr newView, pc.proposal? = some (curr, newView) ∧ epoch = curr.epoch + 1 ∧
      blob = newView.encode) ∨
    ∃ lb retries curr seed, c.shared.backend = some lb ∧
      pc = .opener (.propose (.propose retries curr seed)) ∧ epoch = curr.epoch + 1 ∧
      blob = (curr.view.withSequencerConfig ⟨curr.epoch + 1, lb.token, seed⟩).encode

/-- Every proposal of a thread is one of the two kinds. -/
theorem Pc.move_proposes (pc : Pc) :
    AllCalls (fun call => Pc.Proposes c pc call) (pc.move name c) := by
  -- all other calls are no proposals
  have hno : ∀ {α : Type} {call : Call Fbs.View α}, call.proposal? = none →
      Pc.Proposes c pc call := by
    intro α call hn hoid epoch blob hp
    rw [hn] at hp
    cases hp
  cases pc with
  | opener pc =>
    refine AllCalls.map (openEntry_calls pc (hno rfl) (fun _ => hno rfl) (fun _ => hno rfl) ?_)
    -- an opener proposes itself, from inside `propose_sequencer`
    intro lb ppc hlb hpc
    refine proposeSequencer_calls ppc (fun _ _ _ _ _ _ => hno rfl) (fun _ => hno rfl) ?_
    rintro retries curr seed rfl hoid epoch blob hp
    cases hp
    exact Or.inr ⟨lb, retries, curr, seed, hlb, by rw [hpc], rfl, rfl⟩
  | refresh pc =>
    simp only [Pc.move]
    split
    · exact allCalls_none
    · exact (refreshEntry_calls pc (hno rfl)).map
  | expander pc =>
    simp only [Pc.move]
    split
    · exact allCalls_none
    · refine (expanderEntry_calls pc ?_).map
      rintro curr newView hpc hoid epoch blob hp
      cases hp
      exact Or.inl ⟨curr, newView, hpc, rfl, rfl⟩
  | stripeInit pc =>
    simp only [Pc.move]
    split
    · exact allCalls_none
    · exact (stripeInitEntry_calls pc fun _ _ _ _ => hno rfl).map
  | op r pc =>
    simp only [Pc.move]
    split
    · exact allCalls_none
    · next lb _ =>
      -- the two proposals of an operation: an expansion of the mapping, and a trim
      have hp : ∀ (curr : VersionedView) (newView : View), pc.proposal? = some (curr, newView) →
          Pc.Proposes c (.op r pc) (.proposeView lb.hoid (curr.epoch + 1) newView.encode) := by
        rintro curr newView hpc hoid epoch blob hp
        cases hp
        exact Or.inl ⟨curr, newView, hpc, rfl, rfl⟩
      have hs : ∀ v oid p pe, pc = .seal v oid p pe →
          Pc.Proposes c (.op r pc) (.seal (lb.oid oid) v.epoch) := fun _ _ _ _ _ => hno rfl
      refine AllCalls.map ?_
      cases r with
      | append data => exact appendOp_calls pc hp hs fun _ _ _ _ _ => hno rfl
      | read q => exact positionOp_calls pc hp hs fun _ _ _ _ _ => hno rfl
      | fill q => exact positionOp_calls pc hp hs fun _ _ _ _ _ => hno rfl
      | trim q =>
        simp only [Request.run, trimOp]
        exact positionOp_calls pc hp hs fun _ _ _ _ _ => hno rfl
      | trimTo q => exact trimToOp_calls pc hp hs fun _ _ _ _ _ _ _ => hno rfl
      | checkTail => exact tailOp_calls pc

/-- A view built with the configuration of a stored one is stored with it. -/
theorem HistoryOk.stored_config {vs : List View} {e : Nat} {v v' : View} (h : HistoryOk vs)
    (hv : ViewAt vs e v) (hc : v'.seqConfig = v.seqConfig) :
    v'.stored.seqConfig = v.seqConfig := by
  have hself := congrArg View.seqConfig (h.storable v hv.mem).2
  simp only [View.stored, hc] at hself ⊢
  exact hself

/-- How the views change in a step. -/
inductive ViewsStep (u : Uuid) (w w' : World) (a : Action) : Prop where
  | same : viewsOf u w'.backend = viewsOf u w.backend → ViewsStep u w w' a
  /-- The new view has the configuration of the latest one. -/
  | copied (v v' : View) : ViewAt (viewsOf u w.backend) (latestEpoch u w.backend) v →
      viewsOf u w'.backend = viewsOf u w.backend ++ [v'] → v'.seqConfig = v.seqConfig →
      ViewsStep u w w' a
  /-- A client becomes the sequencer. -/
  | elected (cid tid : Nat) (c : Client) (t t' : Thread) (lb : LogBackend) (retries : Nat)
      (curr : VersionedView) (seed : Nat) (v' : View) : a = .run cid tid →
      w.clients[cid]? = some c → c.threads[tid]? = some t → c.shared.backend = some lb →
      t.pc = .opener (.propose (.propose retries curr seed)) →
      w'.clients[cid]? = some { c with threads := c.threads.set tid t' } →
      t'.pc = .opener (.propose (.waitNew (.enter curr.epoch))) →
      Accepts u w w' (latestEpoch u w.backend + 1) seed →
      viewsOf u w'.backend = viewsOf u w.backend ++ [v'] →
      v'.seqConfig = some ⟨latestEpoch u w.backend + 1, cStr lb.token, seed⟩ →
      ViewsStep u w w' a

theorem Call.proposal_eq_some {α : Type} {call : Call Fbs.View α} {hoid : String} {epoch : Nat}
    {blob : Fbs.View} (h : call.proposal? = some (hoid, epoch, blob)) :
    ∃ hα : α = Ret Unit, hα ▸ call = .proposeView hoid epoch blob := by
  cases call with
  | proposeView =>
    cases h
    exact ⟨rfl, rfl⟩
  | _ => cases h

theorem CallOk.proposal_hoid {α : Type} {call : Call Fbs.View α} {hoid : String} {epoch : Nat}
    {blob : Fbs.View} (hc : CallOk u name b call)
    (h : call.proposal? = some (hoid, epoch, blob)) : hoid = u.hoid := by
  cases hc with
  | proposeView =>
    cases h
    rfl
  | _ => cases h

/-- **Views**: a step adds at most one view, with the old configuration or that of a client that
    becomes the sequencer. -/
theorem Inv.views_step (hI : Inv u name w) (h : w.step a = some w') : ViewsStep u w w' a := by
  rcases hI.backend_step h with heq |
    ⟨cid, tid, c, t, α, call, next, rfl, hc, ht, hm, hcall, hpc, heq⟩
  · exact .same (by rw [heq])
  -- of all calls only an accepted proposal adds a view
  cases hprop : call.proposal? with
  | none => exact .same (by rw [heq]; exact hcall.viewsOf_eq hprop)
  | some x =>
    obtain ⟨hoid, epoch, blob⟩ := x
    obtain ⟨rfl, hcall'⟩ := Call.proposal_eq_some hprop
    dsimp only at hcall'
    subst hcall'
    have hcok := hI.clients c (List.mem_of_getElem? hc)
    obtain rfl := hcall.proposal_hoid hprop
    rcases Pc.move_proposes t.pc _ _ _ hm _ _ _ hprop with ⟨curr, newView, hcn, rfl, rfl⟩ |
      ⟨lb, retries, curr, seed, hlb, hop, rfl, rfl⟩
    · -- an expansion or a trim, which copies the configuration
      obtain ⟨hv, hn, hcfg⟩ := hpc.proposal hcn
      rcases hI.log.proposeView hv hn with ⟨-, hp⟩ | ⟨hlat, b', hp, hviews, -⟩
      · exact .same (by rw [heq]; exact congrArg (fun x => viewsOf u x.2) hp)
      · rw [show w.backend.exec (.proposeView u.hoid (curr.epoch + 1) newView.encode) = _ from hp]
          at heq
        refine .copied curr.view newView.stored (hlat ▸ hv) (by rw [heq]; exact hviews) ?_
        exact hI.log.history.stored_config hv hcfg
    · -- a client that proposes itself
      rw [hop] at hpc
      obtain ⟨hv, -⟩ := hpc
      have hn : NextView curr.epoch curr.view
          (curr.view.withSequencerConfig ⟨curr.epoch + 1, lb.token, seed⟩) :=
        .sequencer lb.token seed (hcok.shared.backend lb hlb).2.2
      rcases hI.log.proposeView hv hn with ⟨-, hp⟩ | ⟨hlat, b', hp, hviews, -⟩
      · exact .same (by rw [heq]; exact congrArg (fun x => viewsOf u x.2) hp)
      · -- the proposal is accepted
        obtain ⟨c₁, t₁, m, hc₁, -, ht₁, hm₁, rfl⟩ := World.step_run h
        rw [hc] at hc₁
        cases hc₁
        rw [ht] at ht₁
        cases ht₁
        -- an accepted proposal goes on to wait for its own view
        rw [hI.named, hm] at hm₁
        cases hm₁
        have hexec : w.backend.exec (.proposeView u.hoid (curr.epoch + 1)
            (curr.view.withSequencerConfig ⟨curr.epoch + 1, lb.token, seed⟩).encode) = (.ok (), b') :=
          hp
        rw [hexec] at heq
        rw [hop] at hm
        have hhoid := (hcok.shared.backend lb hlb).1
        have hnext : next (.ok ()) = .opener (.propose (.waitNew (.enter curr.epoch))) := by
          simp only [Pc.move, openEntry, hlb, proposeSequencer, Move.inside, Option.map_some,
            Move.map, hhoid] at hm
          cases hm
          rfl
        have hlen : latestEpoch u b' = latestEpoch u w.backend + 1 := by
          unfold latestEpoch
          rw [hviews]
          simp
        refine .elected cid tid c t (t.goto w.clock (next (.ok ())) (newEntries w.backend b')) lb
          retries curr seed _ rfl hc ht hlb hop ?_ ?_ ?_ (by rw [heq]; exact hviews)
          (by rw [← hlat]; rfl)
        · simp only [World.runMove, hexec, World.setClient]
          exact List.getElem?_set_self (lt_of_getElem?_eq_some hc)
        · exact hnext
        · exact ⟨⟨cid, tid, h, c, t, retries, curr, hc, ht, hop, by rw [hlat]⟩,
            by rw [heq, hlen], Nat.lt_succ_self _⟩

/-! ## A client in a step -/

/-- How a client came about in a step. -/
inductive ClientStep (u : Uuid) (name : String) (w w' : World) (a : Action) (cid : Nat)
    (c' : Client) : Prop where
  | same : w.clients[cid]? = some c' → ClientStep u name w w' a cid c'
  | fresh (options : Options) (host : Host) : w.clients[cid]? = none →
      c' = Client.new options host w.clock → w'.backend = w.backend →
      ClientStep u name w w' a cid c'
  | invoked (c : Client) (r : Request) : w.clients[cid]? = some c → a = .invoke cid r →
      c.isOpen = true →
      c' = { c with threads := c.threads ++ [⟨.op r r.enter, w.clock, none, []⟩] } →
      w'.backend = w.backend → ClientStep u name w w' a cid c'
  | closing (c : Client) : w.clients[cid]? = some c →
      c' = { c with threads := c.threads.map (fun t =>
        if t.pc = .opener .opened then { t with pc := .opener .shutdownManager } else t) } →
      w'.backend = w.backend → ClientStep u name w w' a cid c'
  | died (c : Client) : w.clients[cid]? = some c →
      c' = { c with shared := { c.shared with aborted := true } } → w'.backend = w.backend →
      ClientStep u name w w' a cid c'
  | ran (c : Client) (tid : Nat) (t : Thread) (sh : Shared) (pc : Pc) :
      w.clients[cid]? = some c → c.threads[tid]? = some t → a = .run cid tid →
      c' = { c with
        shared := sh, threads := c.threads.set tid
          (t.goto w.clock pc (newEntries w.backend w'.backend)) } →
      Kept u name w.backend w'.backend → PcStep u w.backend c.shared t.pc w'.backend pc →
      Moves name c t.pc w.backend sh pc w'.backend → ClientStep u name w w' a cid c'

/-- A list after one of its elements is replaced. -/
theorem getElem?_set_cases {α : Type} {l : List α} {i j : Nat} {x y z : α} (hl : l[i]? = some z)
    (h : (l.set i x)[j]? = some y) : (j ≠ i ∧ l[j]? = some y) ∨ (j = i ∧ y = x) := by
  by_cases heq : j = i
  · subst heq
    rw [List.getElem?_set_self (lt_of_getElem?_eq_some hl)] at h
    exact Or.inr ⟨rfl, (Option.some.inj h).symm⟩
  · rw [List.getElem?_set_ne (Ne.symm heq)] at h
    exact Or.inl ⟨heq, h⟩

/-- **Clients**: a step changes at most one client. -/
theorem Inv.client_step (hI : Inv u name w) (h : w.step a = some w')
    (hc : w'.clients[cid]? = some c') : ClientStep u name w w' a cid c' := by
  cases a with
  | «open» options host =>
    cases h
    rcases getElem?_snoc hc with hc | ⟨hn, rfl⟩
    · exact .same hc
    · exact .fresh options host hn rfl rfl
  | invoke i r =>
    simp only [World.step] at h
    split at h
    · cases h
    · next c hci =>
      split at h
      · next hopen =>
        cases h
        rcases getElem?_set_cases hci hc with ⟨-, hc⟩ | ⟨rfl, rfl⟩
        · exact .same hc
        · exact .invoked c r hci rfl hopen rfl rfl
      · cases h
  | close i =>
    simp only [World.step] at h
    split at h
    · cases h
    · next c hci =>
      split at h
      · cases h
        rcases getElem?_set_cases hci hc with ⟨-, hc⟩ | ⟨rfl, rfl⟩
        · exact .same hc
        · exact .closing c hci rfl rfl
      · cases h
  | run i tid =>
    -- a step of a thread: an assertion that fails, or a move
    obtain ⟨c, t, hci, -, ht, rfl | ⟨sh, pc, hst, hk, -, hpc, hmv⟩⟩ := hI.run_cases h
    · rcases getElem?_set_cases hci hc with ⟨-, hc⟩ | ⟨rfl, rfl⟩
      · exact .same hc
      · exact .died c hci rfl rfl
    · rw [hst.clients] at hc
      rcases getElem?_set_cases hci hc with ⟨-, hc⟩ | ⟨rfl, rfl⟩
      · exact .same hc
      · exact .ran c tid t sh pc hci ht rfl rfl hk hpc hmv

/-- A property of the threads of a client: of those it starts with, of a new operation, of a log
    that is closed, and kept by the thread that moves and by the others. -/
theorem ClientStep.threads_run (P P' : Shared → Pc → Prop) (hs : ClientStep u name w w' a cid c')
    (hold : ∀ c, w.clients[cid]? = some c → ∀ t ∈ c.threads, P c.shared t.pc)
    (hnew : ∀ t ∈ Client.newThreads .openLog w.clock, P' {} t.pc)
    (henter : ∀ r, a = .invoke cid r → P' c'.shared (.op r r.enter))
    (hclose : P' c'.shared (.opener .shutdownManager))
    (hkeep : ∀ c pc, w.clients[cid]? = some c → P c.shared pc → P' c'.shared pc)
    (hmove : ∀ c tid t sh pc, w.clients[cid]? = some c → c.threads[tid]? = some t →
      a = .run cid tid → PcStep u w.backend c.shared t.pc w'.backend pc →
      Moves name c t.pc w.backend sh pc w'.backend → P c.shared t.pc → P' sh pc) :
    ∀ t ∈ c'.threads, P' c'.shared t.pc := by
  intro t' ht'
  cases hs with
  | same hc => exact hkeep c' _ hc (hold c' hc t' ht')
  | fresh options host hn heq hb =>
    subst heq
    exact hnew t' ht'
  | invoked c r hc ha hopen heq hb =>
    subst heq
    rcases List.mem_append.mp ht' with ht' | ht'
    · exact hkeep c _ hc (hold c hc t' ht')
    · rw [List.mem_singleton.mp ht']
      exact henter r ha
  | closing c hc heq hb =>
    subst heq
    obtain ⟨t, ht, rfl⟩ := List.mem_map.mp ht'
    split
    · exact hclose
    · exact hkeep c _ hc (hold c hc t ht)
  | died c hc heq hb =>
    subst heq
    exact hkeep c _ hc (hold c hc t' ht')
  -- the thread that moves, and the others of its client
  | ran c tid t sh pc hc ht ha heq hk hpc hmv =>
    subst heq
    rcases List.mem_or_eq_of_mem_set ht' with ht' | rfl
    · exact hkeep c _ hc (hold c hc t' ht')
    · exact hmove c tid t sh pc hc ht ha hpc hmv (hold c hc t (List.mem_of_getElem? ht))

/-- The same where it does not matter which of the threads moves. -/
theorem ClientStep.threads (P P' : Shared → Pc → Prop) (hs : ClientStep u name w w' a cid c')
    (hold : ∀ c, w.clients[cid]? = some c → ∀ t ∈ c.threads, P c.shared t.pc)
    (hnew : ∀ t ∈ Client.newThreads .openLog w.clock, P' {} t.pc)
    (henter : ∀ r, a = .invoke cid r → P' c'.shared (.op r r.enter))
    (hclose : P' c'.shared (.opener .shutdownManager))
    (hkeep : ∀ c pc, w.clients[cid]? = some c → P c.shared pc → P' c'.shared pc)
    (hmove : ∀ c t sh pc, w.clients[cid]? = some c → t ∈ c.threads →
      PcStep u w.backend c.shared t.pc w'.backend pc → Moves name c t.pc w.backend sh pc w'.backend →
      P c.shared t.pc → P' sh pc) :
    ∀ t ∈ c'.threads, P' c'.shared t.pc :=
  hs.threads_run P P' hold hnew henter hclose hkeep fun c _ t sh pc hc ht _ =>
    hmove c t sh pc hc (List.mem_of_getElem? ht)

/-- Clients stay. -/
theorem World.client_persists (h : w.step a = some w') (hc : w.clients[cid]? = some c) :
    ∃ c', w'.clients[cid]? = some c' := by
  have hlt := lt_of_getElem?_eq_some hc
  -- the list of clients never gets shorter
  suffices hle : w.clients.length ≤ w'.clients.length by
    have hlt' : cid < w'.clients.length := by omega
    exact ⟨w'.clients[cid], List.getElem?_eq_getElem hlt'⟩
  have hset : ∀ i d, w.clients.length ≤ (w.clients.set i d).length :=
    fun i d => le_of_eq List.length_set.symm
  cases a with
  | «open» options host =>
    cases h
    simp
  | invoke i r =>
    simp only [World.step] at h
    split at h
    · cases h
    · split at h
      · cases h
        exact hset _ _
      · cases h
  | close i =>
    simp only [World.step] at h
    split at h
    · cases h
    · split at h
      · cases h
        exact hset _ _
      · cases h
  | run i tid =>
    obtain ⟨c, t, m, -, -, -, -, rfl⟩ := World.step_run h
    cases m with
    | abort => exact hset _ _
    | memory => exact hset _ _
    | backend => exact hset _ _

/-- What a step of a thread does to the memory of its client. -/
theorem Moves.memory {pc pc' : Pc} {sh : Shared} (h : Moves name c pc b sh pc' b') :
    Quiet c.shared sh ∨
    (∃ lb epoch blob, c.shared.backend = some lb ∧ Installs lb c.shared sh epoch blob ∧
      (pc = .refresh (.install epoch blob) ∨ pc = .opener (.install epoch blob))) ∨
    (∃ data v i seq, pc = .op (.append data) (.sequence v i) ∧ Draws c.shared sh i seq) ∨
    (∃ hoid pfx id, pc = .opener (.construct hoid pfx id) ∧
      sh = { c.shared with backend := some ⟨hoid, pfx, makeToken name hoid c.host.text id⟩,
                           readerStarted := true }) ∨
    (pc = .opener .shutdownManager ∧ sh = { c.shared with managerShutdown := true }) := by
  cases h with
  | call call next hm => exact Or.inl (.refl _)
  | access sh pc' hm =>
    rcases Pc.move_memory hm with hq | hi | hd | ⟨hoid, pfx, id, hop, -, hsh⟩ | ⟨hop, -, hsh⟩
    · exact Or.inl hq
    · exact Or.inr (Or.inl hi)
    · exact Or.inr (Or.inr (Or.inl hd))
    · exact Or.inr (Or.inr (Or.inr (Or.inl ⟨hoid, pfx, id, hop, hsh⟩)))
    · exact Or.inr (Or.inr (Or.inr (Or.inr ⟨hop, hsh⟩)))

/-- A step lands where all moves of its control state do. -/
theorem Moves.lands {P : Shared → Pc → Prop} {pc pc' : Pc} {sh : Shared}
    (h : Moves name c pc b sh pc' b') (hl : Lands c.shared P (pc.move name c)) : P sh pc' := by
  cases h with
  | call call next hm =>
    rw [hm] at hl
    exact hl _
  | access sh pc' hm =>
    rw [hm] at hl
    exact hl

/-- The handle is set once: by the step that constructs it. -/
theorem Moves.handle {pc pc' : Pc} {sh : Shared} (h : Moves name c pc b sh pc' b') :
    sh.backend = c.shared.backend ∨ ∃ hoid pfx id, pc = .opener (.construct hoid pfx id) ∧
      sh.backend = some ⟨hoid, pfx, makeToken name hoid c.host.text id⟩ := by
  rcases h.memory with hq | ⟨lb, e, blob, -, hi, -⟩ | ⟨data, v, i, seq, -, hd⟩ |
    ⟨hoid, pfx, id, hop, hsh⟩ | ⟨-, hsh⟩
  · exact Or.inl hq.backend
  · obtain ⟨view, seqs, seq, -, -, rfl⟩ := hi.view
    exact Or.inl rfl
  · rw [hd.shared]
    exact Or.inl rfl
  · rw [hsh]
    exact Or.inr ⟨hoid, pfx, id, hop, rfl⟩
  · rw [hsh]
    exact Or.inl rfl

/-! ## Numbers of clients -/

/-- The client holds the number `id`. -/
def Client.HasId (u : Uuid) (name : String) (c : Client) (id : Nat) : Prop :=
  (∃ t ∈ c.threads, ∃ hoid pfx, t.pc = .opener (.construct hoid pfx id)) ∨
    ∃ lb, c.shared.backend = some lb ∧ lb.token = makeToken name u.hoid c.host.text id

theorem nextUniqueId_le {α : Type} (b : Store) (call : Call Fbs.View α) :
    b.nextUniqueId ≤ (b.exec call).2.nextUniqueId := by
  -- only `UniqueId` changes the number
  cases call with
  | uniqueId hoid =>
    show _ ≤ (b.uniqueId hoid).2.nextUniqueId
    unfold RAMBackend.uniqueId
    split
    · exact le_refl _
    · exact Nat.le_succ _
  | proposeView hoid epoch view =>
    show _ ≤ (b.proposeView hoid epoch view).2.nextUniqueId
    unfold RAMBackend.proposeView
    repeat' split
    all_goals exact le_refl _
  | write oid data epoch position =>
    show _ ≤ (b.write oid data epoch position).2.nextUniqueId
    rcases b.write_cases oid data epoch position with ⟨err, -, hw⟩ | ⟨o, -, -, hw⟩ |
      ⟨o, -, -, hw⟩ <;> exact le_of_eq (by simp only [hw, RAMBackend.setLog])
  | fill oid epoch position =>
    show _ ≤ (b.fill oid epoch position).2.nextUniqueId
    rcases b.fill_cases oid epoch position with ⟨err, -, hf⟩ | ⟨o, d, -, -, hf⟩ | ⟨o, -, -, hf⟩ |
      ⟨o, -, -, hf⟩ <;> exact le_of_eq (by simp only [hf, RAMBackend.setLog])
  | trim oid epoch position l f =>
    show _ ≤ (b.trim oid epoch position l f).2.nextUniqueId
    rcases b.trim_cases oid epoch position l f with ⟨-, -, ht⟩ | ⟨err, -, ht⟩ |
      ⟨o, -, -, ht⟩ <;> exact le_of_eq (by simp only [ht, RAMBackend.setLog])
  | «seal» oid epoch =>
    show _ ≤ (b.seal oid epoch).2.nextUniqueId
    rcases b.seal_cases oid epoch with ⟨-, hs⟩ | ⟨-, -, -, hs⟩ | ⟨o, -, -, hs⟩ |
      ⟨o, -, -, -, hs⟩ | ⟨-, -, hs⟩ <;> exact le_of_eq (by simp only [hs, RAMBackend.setLog])
  | _ => exact le_refl _

/-- A number is handed out once. -/
theorem Moves.construct {opc : OpenPc} {pc' : Pc} {sh : Shared} {hoid pfx : String} {id : Nat}
    (h : Moves name c (.opener opc) b sh pc' b')
    (hpc : pc' = .opener (.construct hoid pfx id)) :
    id = b.nextUniqueId ∧ b'.nextUniqueId = b.nextUniqueId + 1 := by
  -- the step starts at a stage before the number is used
  have hun : opc.Unnamed := by
    refine (h.lands (P := fun sh' pc' => ∀ opc', pc' = .opener opc' → opc'.Unnamed →
      opc.Unnamed ∧ sh' = c.shared) (Lands.map ?_) _ hpc trivial).1
    refine (openEntry_unnamed opc).imp fun sh' s hs opc' heq => ?_
    cases heq
    exact hs
  cases h with
  | access sh pc' hm =>
    subst hpc
    cases opc with
    | openLog => cases hm
    | uniqueId => cases hm
    | construct => cases hm
    | _ => exact hun.elim
  -- the number comes with the answer of `UniqueId`
  | call call next hm =>
    cases opc with
    | openLog =>
      cases hm
      have hgo := Pc.opener.inj hpc
      dsimp only at hgo
      split at hgo
      · split at hgo <;> cases hgo
      · cases hgo
    | uniqueId hoid' pfx' =>
      cases hm
      have hgo := Pc.opener.inj hpc
      by_cases hne : hoid' = ""
      · simp [RAMBackend.exec, RAMBackend.uniqueId, hne] at hgo
      · simp only [RAMBackend.exec, RAMBackend.uniqueId, if_neg hne] at hgo ⊢
        cases hgo
        exact ⟨rfl, trivial⟩
    | construct => cases hm
    | _ => exact hun.elim

/-- Where the number of a client comes from. -/
theorem ClientStep.hasId (hI : Inv u name w) (hs : ClientStep u name w w' a cid c') {id : Nat}
    (hid : c'.HasId u name id) :
    (∃ c, w.clients[cid]? = some c ∧ c.HasId u name id) ∨
      (id = w.backend.nextUniqueId ∧ w'.backend.nextUniqueId = w.backend.nextUniqueId + 1 ∧
        ∃ tid, a = .run cid tid) := by
  cases hs with
  | same hc => exact Or.inl ⟨c', hc, hid⟩
  | fresh options host hn heq hb =>
    subst heq
    rcases hid with ⟨t, ht, hoid, pfx, hpc⟩ | ⟨lb, hlb, -⟩
    · simp only [Client.new, Client.newThreads, List.mem_cons, List.not_mem_nil, or_false] at ht
      rcases ht with rfl | rfl | rfl | rfl <;> cases hpc
    · cases hlb
  | invoked c r hc ha hopen heq hb =>
    subst heq
    refine Or.inl ⟨c, hc, hid.imp_left ?_⟩
    rintro ⟨t, ht, hoid, pfx, hpc⟩
    rcases List.mem_append.mp ht with ht | ht
    · exact ⟨t, ht, hoid, pfx, hpc⟩
    · rw [List.mem_singleton.mp ht] at hpc
      cases hpc
  | closing c hc heq hb =>
    subst heq
    refine Or.inl ⟨c, hc, hid.imp_left ?_⟩
    rintro ⟨t, ht, hoid, pfx, hpc⟩
    obtain ⟨t', ht', rfl⟩ := List.mem_map.mp ht
    split at hpc
    · cases hpc
    · exact ⟨t', ht', hoid, pfx, hpc⟩
  | died c hc heq hb =>
    subst heq
    exact Or.inl ⟨c, hc, hid⟩
  | ran c tid t sh pc hc ht ha heq hk hpc hmv =>
    subst heq
    rcases hid with ⟨t', ht', hoid, pfx, hop⟩ | ⟨lb, hlb, htok⟩
    · rcases List.mem_or_eq_of_mem_set ht' with ht' | rfl
      · exact Or.inl ⟨c, hc, Or.inl ⟨t', ht', hoid, pfx, hop⟩⟩
      · -- the number was just handed out
        right
        have hop' : pc = .opener (.construct hoid pfx id) := hop
        cases htpc : t.pc with
        | opener opc =>
          rw [htpc] at hmv
          obtain ⟨hid, hnext⟩ := hmv.construct hop'
          exact ⟨hid, hnext, tid, ha⟩
        | _ =>
          rw [htpc, hop'] at hpc
          obtain ⟨_, hcontra, -⟩ := hpc
          cases hcontra
    · rcases hmv.handle with hsame | ⟨hoid, pfx, id', htpc, hnew⟩
      · exact Or.inl ⟨c, hc, Or.inr ⟨lb, hsame ▸ hlb, htok⟩⟩
      · -- the number moves from the control state to the handle
        have hok := (hI.clients c (List.mem_of_getElem? hc)).threads t (List.mem_of_getElem? ht)
        rw [htpc] at hok
        obtain ⟨rfl, -⟩ : hoid = u.hoid ∧ pfx = u.pfx := hok
        rw [hnew] at hlb
        cases hlb
        obtain rfl := makeToken_injective htok
        exact Or.inl ⟨c, hc, Or.inl ⟨t, List.mem_of_getElem? ht, _, _, htpc⟩⟩

/-! ## Owners -/

/-- The client has become the sequencer. -/
def Client.Won (c : Client) : Prop := ∃ t ∈ c.threads, ∃ pc, t.pc = .opener pc ∧ pc.Won

/-- A client that became the sequencer stays one that did. -/
theorem ClientStep.won (hs : ClientStep u name w w' a cid c') (hc : w.clients[cid]? = some c)
    (hw : c.Won) : c'.Won := by
  obtain ⟨t, ht, pc, hpc, hwon⟩ := hw
  cases hs with
  | same hc' =>
    rw [hc] at hc'
    cases hc'
    exact ⟨t, ht, pc, hpc, hwon⟩
  | fresh options host hn =>
    rw [hc] at hn
    cases hn
  | invoked c₁ r hc' ha hopen heq hb =>
    rw [hc] at hc'
    cases hc'
    subst heq
    exact ⟨t, List.mem_append_left _ ht, pc, hpc, hwon⟩
  | closing c₁ hc' heq hb =>
    rw [hc] at hc'
    cases hc'
    subst heq
    refine ⟨_, List.mem_map_of_mem ht, ?_⟩
    split
    · exact ⟨.shutdownManager, rfl, trivial⟩
    · exact ⟨pc, hpc, hwon⟩
  | died c₁ hc' heq hb =>
    rw [hc] at hc'
    cases hc'
    subst heq
    exact ⟨t, ht, pc, hpc, hwon⟩
  | ran c₁ tid t₁ sh pc' hc' ht' ha heq hk hstep hmv =>
    rw [hc] at hc'
    cases hc'
    subst heq
    obtain ⟨i, hi⟩ := List.mem_iff_getElem?.mp ht
    by_cases hit : i = tid
    · -- the step of the opening thread itself
      subst hit
      rw [ht'] at hi
      cases hi
      rw [hpc] at hstep hmv
      obtain ⟨opc, rfl, -⟩ := hstep
      refine ⟨_, List.mem_of_getElem? (List.getElem?_set_self (lt_of_getElem?_eq_some ht')), opc, rfl,
        ?_⟩
      refine hmv.lands (P := fun _ pc' => ∀ opc', pc' = .opener opc' → opc'.Won) (Lands.map ?_) opc rfl
      refine (openEntry_won pc hwon).imp fun _ s hs opc' heq => ?_
      cases heq
      exact hs
    · exact ⟨t, List.mem_of_getElem? ((List.getElem?_set_ne (Ne.symm hit)).trans hi), pc, hpc, hwon⟩

/-- Who the stored configurations belong to. -/
structure Owners (u : Uuid) (name : String) (w : World) : Prop where
  id_lt : ∀ c ∈ w.clients, ∀ id, c.HasId u name id → id < w.backend.nextUniqueId
  id_unique : ∀ (i j : Nat) (c d : Client) id, w.clients[i]? = some c → w.clients[j]? = some d →
    c.HasId u name id → d.HasId u name id → i = j
  unnamed : ∀ c ∈ w.clients, ∀ t ∈ c.threads, ∀ pc, t.pc = .opener pc → pc.Unnamed →
    c.shared.backend = none
  handle : ∀ c ∈ w.clients, ∀ lb, c.shared.backend = some lb →
    ∃ id, lb.token = makeToken name u.hoid c.host.text id
  owner : ∀ e v cfg, ViewAt (viewsOf u w.backend) e v → v.seqConfig = some cfg →
    ∃ c ∈ w.clients, ∃ lb, c.shared.backend = some lb ∧ cfg.token = cStr lb.token ∧ c.Won
  config_unique : ∀ e v cfg e' v' cfg' (host : Host) id, ViewAt (viewsOf u w.backend) e v →
    ViewAt (viewsOf u w.backend) e' v' → v.seqConfig = some cfg → v'.seqConfig = some cfg' →
    cfg.token = makeToken name u.hoid host.text id →
    cfg'.token = makeToken name u.hoid host.text id → cfg = cfg'

/-- A token belongs to one client. -/
theorem Owners.client_unique (hO : Owners u name w) {i j : Nat} {d : Client} {lb lb' : LogBackend}
    (hc : w.clients[i]? = some c) (hd : w.clients[j]? = some d) (hlb : c.shared.backend = some lb)
    (hlb' : d.shared.backend = some lb') (htok : lb.token = lb'.token) : i = j := by
  obtain ⟨id, hid⟩ := hO.handle c (List.mem_of_getElem? hc) lb hlb
  obtain ⟨id', hid'⟩ := hO.handle d (List.mem_of_getElem? hd) lb' hlb'
  rw [hid, hid'] at htok
  obtain rfl := makeToken_injective htok
  exact hO.id_unique i j c d id hc hd (Or.inr ⟨lb, hlb, hid⟩) (Or.inr ⟨lb', hlb', hid'⟩)

/-- A client owns at most one configuration. -/
theorem Owners.own_unique (hO : Owners u name w) (hc : c ∈ w.clients) {lb : LogBackend}
    (hlb : c.shared.backend = some lb) {e e' : Nat} {v v' : View} {cfg cfg' : SequencerConfig}
    (hv : ViewAt (viewsOf u w.backend) e v) (hv' : ViewAt (viewsOf u w.backend) e' v')
    (hcfg : v.seqConfig = some cfg) (hcfg' : v'.seqConfig = some cfg')
    (ht : cfg.token = lb.token) (ht' : cfg'.token = lb.token) : cfg = cfg' := by
  obtain ⟨id, hid⟩ := hO.handle c hc lb hlb
  exact hO.config_unique e v cfg e' v' cfg' c.host id hv hv' hcfg hcfg' (ht.trans hid)
    (ht'.trans hid)

theorem Inv.nextUniqueId_le (hI : Inv u name w) (h : w.step a = some w') :
    w.backend.nextUniqueId ≤ w'.backend.nextUniqueId := by
  rcases hI.backend_step h with heq | ⟨_, _, _, _, _, call, _, -, -, -, -, -, -, heq⟩
  · rw [heq]
  · rw [heq]
    exact ZLog.nextUniqueId_le _ call

/-- A stored view, or the one that the step adds. -/
theorem ViewsStep.config (hs : ViewsStep u w w' a) {e : Nat} {v : View} {cfg : SequencerConfig}
    (hv : ViewAt (viewsOf u w'.backend) e v) (hc : v.seqConfig = some cfg) :
    (∃ e₀ v₀, ViewAt (viewsOf u w.backend) e₀ v₀ ∧ v₀.seqConfig = some cfg) ∨
    ∃ cid tid c t lb retries curr t', a = .run cid tid ∧ w.clients[cid]? = some c ∧
      c.threads[tid]? = some t ∧ c.shared.backend = some lb ∧
      t.pc = .opener (.propose (.propose retries curr cfg.position)) ∧
      w'.clients[cid]? = some { c with threads := c.threads.set tid t' } ∧
      t'.pc = .opener (.propose (.waitNew (.enter curr.epoch))) ∧
      Accepts u w w' (latestEpoch u w.backend + 1) cfg.position ∧
      e = latestEpoch u w.backend + 1 ∧ cfg.epoch = e ∧ cfg.token = cStr lb.token := by
  cases hs with
  | same heq =>
    rw [heq] at hv
    exact Or.inl ⟨e, v, hv, hc⟩
  | copied v₁ v' hv₁ heq hcfg =>
    rw [heq] at hv
    rcases viewAt_append hv with hv | ⟨-, rfl⟩
    · exact Or.inl ⟨e, v, hv, hc⟩
    · exact Or.inl ⟨_, v₁, hv₁, hcfg ▸ hc⟩
  | elected cid tid c t t' lb retries curr seed v' ha hcl ht hlb hop hcl' hop' hacc heq hcfg =>
    rw [heq] at hv
    rcases viewAt_append hv with hv | ⟨he, rfl⟩
    · exact Or.inl ⟨e, v, hv, hc⟩
    · rw [hcfg] at hc
      cases hc
      exact Or.inr ⟨cid, tid, c, t, lb, retries, curr, t', ha, hcl, ht, hlb, hop, hcl', hop', hacc,
        he, he.symm, rfl⟩

/-- The handle of a client stays. -/
theorem ClientStep.handle_stays (hO : Owners u name w) (hs : ClientStep u name w w' a cid c')
    (hc : w.clients[cid]? = some c) {lb : LogBackend} (hlb : c.shared.backend = some lb) :
    c'.shared.backend = some lb := by
  cases hs with
  | same hc' =>
    rw [hc] at hc'
    cases hc'
    exact hlb
  | fresh options host hn =>
    rw [hc] at hn
    cases hn
  | invoked c₁ r hc' ha hopen heq hb =>
    rw [hc] at hc'
    cases hc'
    rw [heq]
    exact hlb
  | closing c₁ hc' heq hb =>
    rw [hc] at hc'
    cases hc'
    rw [heq]
    exact hlb
  | died c₁ hc' heq hb =>
    rw [hc] at hc'
    cases hc'
    rw [heq]
    exact hlb
  | ran c₁ tid t sh pc hc' ht ha heq hk hpc hmv =>
    rw [hc] at hc'
    cases hc'
    rw [heq]
    rcases hmv.handle with hsame | ⟨hoid, pfx, id, htpc, -⟩
    · exact hsame.trans hlb
    · -- a handle is constructed once: before that there was none
      have hnone := hO.unnamed c (List.mem_of_getElem? hc) t (List.mem_of_getElem? ht) _ htpc trivial
      rw [hlb] at hnone
      cases hnone

theorem ClientStep.unnamed (hG : Good u name w) (hO : Owners u name w)
    (hs : ClientStep u name w w' a cid c') {t : Thread} (ht : t ∈ c'.threads) {pc : OpenPc}
    (hpc : t.pc = .opener pc) (hun : pc.Unnamed) : c'.shared.backend = none := by
  cases hs with
  | same hc => exact hO.unnamed c' (List.mem_of_getElem? hc) t ht pc hpc hun
  | fresh options host hn heq hb =>
    rw [heq]
    rfl
  | invoked c r hc ha hopen heq hb =>
    subst heq
    rcases List.mem_append.mp ht with ht | ht
    · exact hO.unnamed c (List.mem_of_getElem? hc) t ht pc hpc hun
    · rw [List.mem_singleton.mp ht] at hpc
      cases hpc
  | closing c hc heq hb =>
    subst heq
    obtain ⟨t', ht', rfl⟩ := List.mem_map.mp ht
    split at hpc
    · cases hpc
      exact hun.elim
    · exact hO.unnamed c (List.mem_of_getElem? hc) t' ht' pc hpc hun
  | died c hc heq hb =>
    subst heq
    exact hO.unnamed c (List.mem_of_getElem? hc) t ht pc hpc hun
  | ran c tid t₀ sh pc' hc ht₀ ha heq hk hstep hmv =>
    subst heq
    have hmem := List.mem_of_getElem? hc
    obtain ⟨i, hi⟩ := List.mem_iff_getElem?.mp ht
    rcases getElem?_set_cases ht₀ hi with ⟨hne, hi⟩ | ⟨rfl, rfl⟩
    · have hnone := hO.unnamed c hmem t (List.mem_of_getElem? hi) pc hpc hun
      rcases hmv.handle with hsame | ⟨hoid, pfx, id, htpc, -⟩
      · exact hsame.trans hnone
      · -- there is one opening thread, and it has left this stage
        have h₀ := (hG.life c hmem).others i t pc hi hpc
        have h₁ := (hG.life c hmem).others tid t₀ _ ht₀ htpc
        exact absurd (h₀.trans h₁.symm) hne
    · -- the thread that moves is the opener itself
      have hpc' : pc' = .opener pc := hpc
      subst hpc'
      cases htpc : t₀.pc with
      | opener opc =>
        rw [htpc] at hmv
        have hland := hmv.lands (P := fun sh' pc' => ∀ opc', pc' = .opener opc' → opc'.Unnamed →
          opc.Unnamed ∧ sh' = c.shared) (Lands.map ((openEntry_unnamed opc).imp
            fun sh' s hs opc' heq => by cases heq; exact hs))
        obtain ⟨hopc, rfl⟩ := hland pc rfl hun
        exact hO.unnamed c hmem t₀ (List.mem_of_getElem? ht₀) opc htpc hopc
      | _ =>
        rw [htpc] at hstep
        obtain ⟨_, hcontra, -⟩ := hstep
        cases hcontra

/-- A handle is the old one, or was just built. -/
theorem ClientStep.handle_token (hI : Inv u name w) (hO : Owners u name w)
    (hs : ClientStep u name w w' a cid c') {lb : LogBackend} (hlb : c'.shared.backend = some lb) :
    ∃ id, lb.token = makeToken name u.hoid c'.host.text id := by
  cases hs with
  | same hc => exact hO.handle c' (List.mem_of_getElem? hc) lb hlb
  | fresh options host hn heq hb =>
    rw [heq] at hlb
    cases hlb
  | invoked c r hc ha hopen heq hb =>
    subst heq
    exact hO.handle c (List.mem_of_getElem? hc) lb hlb
  | closing c hc heq hb =>
    subst heq
    exact hO.handle c (List.mem_of_getElem? hc) lb hlb
  | died c hc heq hb =>
    subst heq
    exact hO.handle c (List.mem_of_getElem? hc) lb hlb
  | ran c tid t sh pc hc ht ha heq hk hpc hmv =>
    subst heq
    rcases hmv.handle with hsame | ⟨hoid, pfx, id, htpc, hnew⟩
    · exact hO.handle c (List.mem_of_getElem? hc) lb (hsame ▸ hlb)
    · -- the constructor makes the token from the number of the client
      have hok := (hI.clients c (List.mem_of_getElem? hc)).threads t (List.mem_of_getElem? ht)
      rw [htpc] at hok
      obtain ⟨rfl, -⟩ : hoid = u.hoid ∧ pfx = u.pfx := hok
      rw [hnew] at hlb
      cases hlb
      exact ⟨id, rfl⟩

/-- A client that is about to propose itself owns no configuration. -/
theorem Owners.not_owned (hG : Good u name w) (hO : Owners u name w)
    (hc : w.clients[cid]? = some c) {tid : Nat} {t : Thread} (ht : c.threads[tid]? = some t)
    {pc : OpenPc} (hpc : t.pc = .opener pc) (hnot : ¬ pc.Won) {lb : LogBackend}
    (hlb : c.shared.backend = some lb) {e id : Nat} {v : View} {cfg : SequencerConfig}
    (hid : lb.token = makeToken name u.hoid c.host.text id)
    (hv : ViewAt (viewsOf u w.backend) e v) (hcfg : v.seqConfig = some cfg) {host : Host} :
    cfg.token ≠ makeToken name u.hoid host.text id := by
  -- the owner of such a configuration has the same number, so it is the same client
  intro htok
  obtain ⟨d, hd, lb', hlb', htok', t', ht', pc', hpc', hwon⟩ := hO.owner e v cfg hv hcfg
  obtain ⟨id', hid'⟩ := hO.handle d hd lb' hlb'
  obtain ⟨j, hj⟩ := List.mem_iff_getElem?.mp hd
  rw [htok', hid'] at htok
  obtain rfl := cStr_makeToken htok
  -- numbers belong to one client
  have hij := hO.id_unique cid j c d id' hc hj (Or.inr ⟨lb, hlb, hid⟩) (Or.inr ⟨lb', hlb', hid'⟩)
  subst hij
  rw [hc] at hj
  cases hj
  obtain ⟨i, hi⟩ := List.mem_iff_getElem?.mp ht'
  have hlife := hG.life c (List.mem_of_getElem? hc)
  -- and it has one opening thread, which cannot both have won and not have won
  have h₀ := hlife.others i t' pc' hi hpc'
  have h₁ := hlife.others tid t pc ht hpc
  rw [h₀, ← h₁, ht] at hi
  cases hi
  rw [hpc] at hpc'
  cases hpc'
  exact hnot hwon

/-- The token of a client that is elected was not stored before. -/
theorem Owners.elected_new (hG : Good u name w) (hO : Owners u name w)
    (hc : w.clients[cid]? = some c) {tid : Nat} {t : Thread} (ht : c.threads[tid]? = some t)
    {retries seed : Nat} {curr : VersionedView}
    (hpc : t.pc = .opener (.propose (.propose retries curr seed))) {lb : LogBackend}
    (hlb : c.shared.backend = some lb) {e id : Nat} {v : View} {cfg : SequencerConfig}
    (hv : ViewAt (viewsOf u w.backend) e v) (hcfg : v.seqConfig = some cfg) {host : Host}
    (htok : cfg.token = makeToken name u.hoid host.text id) :
    cStr lb.token ≠ makeToken name u.hoid host.text id := by
  intro hself
  obtain ⟨id', hid'⟩ := hO.handle c (List.mem_of_getElem? hc) lb hlb
  -- a stored token that reads as another one comes from the same number
  rw [hid'] at hself
  obtain rfl := cStr_makeToken hself
  exact hO.not_owned hG hc ht hpc (fun hwon => hwon) hlb hid' hv hcfg htok

/-- **Step**: every action keeps the owners. -/
theorem Owners.step (hG : Good u name w) (hO : Owners u name w) (h : w.step a = some w') :
    Owners u name w' := by
  have hI := hG.toInv
  have hclient : ∀ c' ∈ w'.clients, ∃ cid, w'.clients[cid]? = some c' ∧
      ClientStep u name w w' a cid c' := by
    intro c' hc'
    obtain ⟨cid, hcid⟩ := List.mem_iff_getElem?.mp hc'
    exact ⟨cid, hcid, hI.client_step h hcid⟩
  have hview := hI.views_step h
  refine ⟨?_, ?_, ?_, ?_, ?_, ?_⟩
  · -- numbers are handed out in order
    intro c' hc' id hid
    obtain ⟨cid, -, hs⟩ := hclient c' hc'
    have hmono := hI.nextUniqueId_le h
    rcases hs.hasId hI hid with ⟨c, hc, hold⟩ | ⟨hnew, hnext, -⟩
    · have := hO.id_lt c (List.mem_of_getElem? hc) id hold
      omega
    · omega
  · -- two clients with one number: both old, or one of them new, or both by the same step
    intro i j c' d' id hc' hd' hid hid'
    rcases (hI.client_step h hc').hasId hI hid with ⟨c, hc, hold⟩ | ⟨hnew, -, tid, ha⟩
    · rcases (hI.client_step h hd').hasId hI hid' with ⟨d, hd, hold'⟩ | ⟨hnew', -, tid', ha'⟩
      · exact hO.id_unique i j c d id hc hd hold hold'
      · have := hO.id_lt c (List.mem_of_getElem? hc) id hold
        omega
    · rcases (hI.client_step h hd').hasId hI hid' with ⟨d, hd, hold'⟩ | ⟨hnew', -, tid', ha'⟩
      · have := hO.id_lt d (List.mem_of_getElem? hd) id hold'
        omega
      · rw [ha] at ha'
        cases ha'
        rfl
  · intro c' hc' t ht pc hpc hun
    obtain ⟨cid, -, hs⟩ := hclient c' hc'
    exact hs.unnamed hG hO ht hpc hun
  · intro c' hc' lb hlb
    obtain ⟨cid, -, hs⟩ := hclient c' hc'
    exact hs.handle_token hI hO hlb
  · -- the owner of an old configuration stays its owner; the owner of the new one is the client
    -- that won
    intro e v cfg hv hcfg
    rcases hview.config hv hcfg with ⟨e₀, v₀, hv₀, hcfg₀⟩ |
      ⟨cid, tid, c, t, lb, retries, curr, t', -, hc, ht, hlb, -, hc', hpc', -, -, -, htok⟩
    · obtain ⟨c, hc, lb, hlb, htok, hwon⟩ := hO.owner e₀ v₀ cfg hv₀ hcfg₀
      obtain ⟨cid, hcid⟩ := List.mem_iff_getElem?.mp hc
      obtain ⟨c', hc'⟩ := World.client_persists h hcid
      have hs := hI.client_step h hc'
      exact ⟨c', List.mem_of_getElem? hc', lb, hs.handle_stays hO hcid hlb, htok, hs.won hcid hwon⟩
    · refine ⟨_, List.mem_of_getElem? hc', lb, hlb, htok, t', ?_, _, hpc', trivial⟩
      exact List.mem_of_getElem? (List.getElem?_set_self (lt_of_getElem?_eq_some ht))
  · -- two configurations with one token: both old, one new, or both the one of this step
    intro e v cfg e' v' cfg' host id hv hv' hcfg hcfg' htok htok'
    rcases hview.config hv hcfg with ⟨e₀, v₀, hv₀, hcfg₀⟩ |
      ⟨cid, tid, c, t, lb, retries, curr, t', ha, hc, ht, hlb, hpc, -, -, -, he, hce, hct⟩
    · rcases hview.config hv' hcfg' with ⟨e₁, v₁, hv₁, hcfg₁⟩ |
        ⟨cid, tid, c, t, lb, retries, curr, t', ha, hc, ht, hlb, hpc, -, -, -, he, hce, hct⟩
      · exact hO.config_unique e₀ v₀ cfg e₁ v₁ cfg' host id hv₀ hv₁ hcfg₀ hcfg₁ htok htok'
      · exact absurd (hct.symm.trans htok') (hO.elected_new hG hc ht hpc hlb hv₀ hcfg₀ htok)
    · rcases hview.config hv' hcfg' with ⟨e₁, v₁, hv₁, hcfg₁⟩ |
        ⟨cid', tid', c', t₁, lb', retries', curr', t₁', ha', hc', ht', hlb', hpc', -, -, -, he', hce',
          hct'⟩
      · exact absurd (hct.symm.trans htok) (hO.elected_new hG hc ht hpc hlb hv₁ hcfg₁ htok')
      · rw [he] at hv
        rw [he'] at hv'
        rw [hv.unique hv', hcfg'] at hcfg
        cases hcfg
        rfl

theorem Owners.init {options : Options} {host : Host}
    (h : World.init name u options host = some w) : Owners u name w := by
  obtain ⟨v₀, hviews, hnone⟩ := viewsOf_init h
  -- the first view has no configuration
  have hno : ∀ {e v cfg} {q : Prop}, ViewAt (viewsOf u w.backend) e v →
      v.seqConfig = some cfg → q := by
    intro e v cfg q hv hcfg
    rw [hviews] at hv
    rw [List.mem_singleton.mp hv.mem, hnone] at hcfg
    cases hcfg
  obtain ⟨blob, b, -, -, rfl⟩ := World.init_eq h
  -- the first client has no number yet
  have hid : ∀ {c : Client} {id : Nat} {q : Prop},
      c = ⟨options, host, true, {}, Client.newThreads (.uniqueId u.hoid u.pfx) 0⟩ →
      c.HasId u name id → q := by
    rintro c id q rfl (⟨t, ht, hoid, pfx, hpc⟩ | ⟨lb, hlb, -⟩)
    · simp only [Client.newThreads, List.mem_cons, List.not_mem_nil, or_false] at ht
      rcases ht with rfl | rfl | rfl | rfl <;> cases hpc
    · cases hlb
  refine ⟨?_, ?_, ?_, ?_, ?_, ?_⟩
  · exact fun c hc id hc' => hid (List.mem_singleton.mp hc) hc'
  · exact fun i j c d id hc _ hc' _ => hid (List.mem_singleton.mp (List.mem_of_getElem? hc)) hc'
  · intro c hc t ht pc hpc hun
    rw [List.mem_singleton.mp hc]
  · intro c hc lb hlb
    rw [List.mem_singleton.mp hc] at hlb
    cases hlb
  · exact fun e v cfg hv hcfg => hno hv hcfg
  · exact fun e v cfg e' v' cfg' host id hv _ hcfg => hno hv hcfg

/-- **Owners**: in every reachable state. -/
theorem Owners.of_reaches {options : Options} {host : Host} {w₀ : World}
    (h₀ : World.init name u options host = some w₀) (h : Lib.Reaches World.step w₀ w) :
    Owners u name w :=
  h.invariant_reaches (I := Owners u name)
    (fun _ _ _ hr hO _ hs => hO.step ((Good.init h₀).of_reaches hr) hs) (Owners.init h₀)

end

end ZLog
