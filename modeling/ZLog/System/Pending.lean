import ZLog.Client.Waits
import ZLog.System.Records

/-!
# Proposals in progress

Objects are sealed for an epoch that does not exist yet only by a client inside
`propose_sequencer`.  As long as no client dies, such an object means that a proposal of that
epoch is on its way, so no operation waits for a view that nobody is installing.

## Main results

- `no_orphan_wait`
-/

namespace ZLog

/-! ## Proposers -/

/-- Inside `propose_sequencer`, before the answer to the proposal of epoch `e`. -/
def ProposePc.Proposing (e : Nat) : ProposePc → Prop
  | .seal _ curr _ _ _ => curr.epoch + 1 = e
  | .maxPos _ curr _ _ _ _ => curr.epoch + 1 = e
  | .propose _ curr _ => curr.epoch + 1 = e
  | _ => False

/-- Some client is proposing a sequencer at epoch `e`. -/
def World.Pending (w : World) (e : Nat) : Prop :=
  ∃ cid tid t pc, w.thread? cid tid = some t ∧ t.pc = .opener (.propose pc) ∧ pc.Proposing e

/-- The epoch of a seal. -/
def Call.sealEpoch : {α : Type} → Call Fbs.View α → Nat
  | _, .seal _ epoch => epoch
  | _, _ => 0

section

variable {u : Uuid} {name : String} {b b' : Store} {sh : Shared} {c : Client} {w w' w₀ : World}
  {a : Action}

/-- A stripe has objects. -/
theorem Stripe.oids_ne_nil (stripe : Stripe) : stripe.oids ≠ [] := by
  intro h
  have hlen := congrArg List.length h
  simp only [Stripe.oids, Stripe.makeOids, List.length_map, List.length_range, List.length_nil]
    at hlen
  exact absurd hlen (Nat.ne_of_gt stripe.width_pos)

/-- The scan over existing stripes goes on. -/
theorem LogOk.scan_proposing (h : LogOk u name b) {curr : VersionedView} {k : Nat} (retries : Nat)
    (hc : Held u b curr) (hk : k ≤ curr.objectMap.numStripes) :
    (ProposePc.scan retries curr k).Proposing (curr.epoch + 1) := by
  cases k with
  | zero => rfl
  | succ k =>
    obtain ⟨L, hL⟩ := h.history.layout
    obtain ⟨stripe, hst, -⟩ := (hL curr.view hc.mem).stripeById hk
    simp only [ProposePc.scan]
    rw [show curr.objectMap.stripeById k = .ok stripe from hst]
    simp only [ProposePc.sealStripe]
    cases hoids : stripe.oids with
    | nil => exact absurd hoids stripe.oids_ne_nil
    | cons oid rest => rfl

/-- **A proposer stays one** until the epoch it proposes is taken. -/
theorem LogOk.proposing_step (h : LogOk u name b) {lb : LogBackend} {pc : ProposePc}
    (hlb : HandleOk u lb) (hpc : ProposeOk u b pc) (hp : pc.Proposing (latestEpoch u b + 1))
    {α : Type} {call : Call Fbs.View α} {next : α → Next ProposePc (Ret Unit)}
    (hm : proposeSequencer lb sh pc = some (.backend call next)) :
    (∃ pc', next (b.exec call).1 = .goto pc' ∧ pc'.Proposing (latestEpoch u b + 1)) ∨
      latestEpoch u b < latestEpoch u (b.exec call).2 := by
  cases pc with
  | «seal» retries curr stripe oid rest =>
    obtain ⟨hc, -, -, k, hd, -⟩ := hpc
    obtain ⟨rfl, -, -⟩ := oids_cursor hd
    simp only [proposeSequencer, hlb.oid] at hm
    cases hm
    obtain ⟨r, b', hexec, hr, -⟩ := h.exec_seal (s := stripe.stripeId) (i := k)
      (show 0 < curr.epoch + 1 by omega)
    left
    rw [hexec]
    have hgo : ∃ pc', ProposePc.afterSeal retries curr stripe rest = .goto pc' ∧
        pc'.Proposing (latestEpoch u b + 1) := by
      unfold ProposePc.afterSeal
      cases rest with
      | cons oid rest => exact ⟨_, rfl, hp⟩
      | nil =>
        cases hoids : stripe.oids with
        | nil => exact absurd hoids stripe.oids_ne_nil
        | cons oid rest => exact ⟨_, rfl, hp⟩
    rcases hr with rfl | rfl
    · exact hgo
    · exact hgo
  | maxPos retries curr stripe oid rest acc =>
    obtain ⟨hc, hs, -, hsealed, -, k, hd, -⟩ := hpc
    obtain ⟨rfl, hk, -⟩ := oids_cursor hd
    simp only [proposeSequencer, hlb.oid] at hm
    cases hm
    left
    -- the object was sealed, so it answers
    obtain ⟨o, ho⟩ := exists_objectAt (Nat.zero_lt_of_lt (hsealed k hk))
    rw [exec_maxPos ho]
    cases rest with
    | cons oid rest => exact ⟨_, rfl, hp⟩
    | nil =>
      refine ⟨_, rfl, ?_⟩
      have hce : curr.epoch + 1 = latestEpoch u b + 1 := hp
      rw [← hce]
      cases foldMaxPos acc o.maxPos with
      | some x => rfl
      | none =>
        obtain ⟨L, hL⟩ := h.history.layout
        have hlt := ((hL curr.view hc.mem).stripeById_ok hs).1
        exact h.scan_proposing retries hc (Nat.le_of_lt hlt)
  | propose retries curr seed =>
    obtain ⟨hc, -⟩ := hpc
    simp only [proposeSequencer] at hm
    cases hm
    right
    have hn : NextView curr.epoch curr.view
        (curr.view.withSequencerConfig ⟨curr.epoch + 1, lb.token, seed⟩) :=
      .sequencer lb.token seed hlb.2.2
    have hce : curr.epoch = latestEpoch u b := Nat.succ.inj hp
    rcases h.proposeView hc hn with ⟨hlt, -⟩ | ⟨-, b', hexec, hviews, -⟩
    · omega
    · have hexec' : b.exec (.proposeView u.hoid (curr.epoch + 1)
          (curr.view.withSequencerConfig ⟨curr.epoch + 1, lb.token, seed⟩).encode) =
          (.ok (), b') := hexec
      rw [hlb.1, hexec']
      unfold latestEpoch
      rw [hviews]
      simp
  | _ => exact hp.elim

/-- Only proposers seal objects for an epoch ahead of the views. -/
theorem Pc.move_sealEpoch {pc : Pc} (hpc : PcOk u b pc) :
    AllCalls (fun call => call.sealEpoch ≤ latestEpoch u b ∨
      ∃ ppc, pc = .opener (.propose ppc) ∧ ppc.Proposing call.sealEpoch) (pc.move name c) := by
  have hzero : ∀ {n : Nat} {q : Prop}, 0 ≤ n ∨ q := fun {n q} => Or.inl (Nat.zero_le n)
  cases pc with
  | opener pc =>
    refine AllCalls.map (openEntry_calls pc hzero (fun _ => hzero) (fun _ => hzero)
      fun lb ppc _ hppc => ?_)
    refine proposeSequencer_calls ppc ?_ (fun _ => hzero) (fun _ _ _ _ => hzero)
    rintro retries curr stripe oid rest rfl
    exact Or.inr ⟨.seal retries curr stripe oid rest, by rw [hppc], rfl⟩
  | refresh pc =>
    simp only [Pc.move]
    split
    · exact allCalls_none
    · exact (refreshEntry_calls pc hzero).map
  | expander pc =>
    simp only [Pc.move]
    split
    · exact allCalls_none
    · exact (expanderEntry_calls pc fun _ _ _ => hzero).map
  | stripeInit pc =>
    simp only [Pc.move]
    split
    · exact allCalls_none
    · refine (stripeInitEntry_calls pc ?_).map
      rintro epoch oid rest rfl
      exact Or.inl hpc.2.1
  | op r pc =>
    simp only [Pc.move]
    split
    · exact allCalls_none
    · next lb _ =>
      have hp : ∀ (curr : VersionedView) (newView : View), pc.proposal? = some (curr, newView) →
          (Call.proposeView lb.hoid (curr.epoch + 1) newView.encode).sealEpoch ≤
            latestEpoch u b ∨ ∃ ppc, Pc.op r pc = .opener (.propose ppc) ∧ ppc.Proposing
              (Call.proposeView lb.hoid (curr.epoch + 1) newView.encode).sealEpoch :=
        fun _ _ _ => hzero
      have hs : ∀ v oid p pe, pc = .seal v oid p pe →
          (Call.seal (lb.oid oid) v.epoch).sealEpoch ≤ latestEpoch u b ∨
          ∃ ppc, Pc.op r pc = .opener (.propose ppc) ∧
            ppc.Proposing (Call.seal (lb.oid oid) v.epoch).sealEpoch := by
        rintro v oid p pe rfl
        exact Or.inl hpc.2.1.epoch_le
      refine AllCalls.map ?_
      cases r with
      | append data => exact appendOp_calls pc hp hs fun _ _ _ _ _ => hzero
      | read q => exact positionOp_calls pc hp hs fun _ _ _ _ _ => hzero
      | fill q => exact positionOp_calls pc hp hs fun _ _ _ _ _ => hzero
      | trim q =>
        simp only [Request.run, trimOp]
        exact positionOp_calls pc hp hs fun _ _ _ _ _ => hzero
      | trimTo q => exact trimToOp_calls pc hp hs fun _ _ _ _ _ _ _ => hzero
      | checkTail => exact tailOp_calls pc

/-- A call raises an epoch at most to that of its seal. -/
theorem CallOk.objectEpoch_le (h : LogOk u name b) {α : Type} {call : Call Fbs.View α}
    (hc : CallOk u name b call) (s i : Nat) :
    objectEpoch u (b.exec call).2 s i ≤ max (objectEpoch u b s i) call.sealEpoch := by
  have hsame : ∀ {b'}, (∀ oid, b'.logAt oid = b.logAt oid) →
      objectEpoch u b' s i ≤ max (objectEpoch u b s i) call.sealEpoch := by
    intro b' hb'
    unfold objectEpoch RAMBackend.epochAt
    rw [hb']
    exact le_max_left _ _
  -- an entry call keeps the epoch of the object it replaces
  have hset : ∀ {s' i' e o o'}, b.checkIo (dataOid u s' i') e = .ok o → o'.epoch = o.epoch →
      objectEpoch u (b.setLog (dataOid u s' i') o') s i ≤
        max (objectEpoch u b s i) call.sealEpoch := by
    intro s' i' e o o' hio ho'
    obtain ⟨-, -, ho, -⟩ := RAMBackend.checkIo_eq_ok.mp hio
    rw [objectEpoch_setLog]
    split
    · next heq =>
      rw [ho', heq.1, heq.2, objectEpoch_of_objectAt ho]
      exact le_max_left _ _
    · exact le_max_left _ _
  cases hc with
  | openLog => exact hsame fun _ => rfl
  | uniqueId =>
    show objectEpoch u (b.uniqueId u.hoid).2 s i ≤ _
    unfold RAMBackend.uniqueId
    rw [if_neg u.hoid_ne_empty]
    refine hsame ?_
    intro oid
    rfl
  | readViews => exact hsame fun _ => rfl
  | proposeView hv hn => exact hsame (h.logAt_proposeView hv hn)
  | read => exact hsame fun _ => rfl
  | @write e p s' i' v last data hv hm =>
    show objectEpoch u (b.write (dataOid u s' i') data e p).2 s i ≤ _
    rcases b.write_cases (dataOid u s' i') data e p with ⟨err, -, hw⟩ | ⟨o, -, -, hw⟩ |
      ⟨o, hio, hu, hw⟩ <;> rw [hw]
    · exact hsame fun _ => rfl
    · exact hsame fun _ => rfl
    · exact hset hio (LogObject.epoch_write ..)
  | @fill e p s' i' v last hv hm =>
    show objectEpoch u (b.fill (dataOid u s' i') e p).2 s i ≤ _
    rcases b.fill_cases (dataOid u s' i') e p with ⟨err, -, hf⟩ | ⟨o, d, -, -, hf⟩ |
      ⟨o, hio, hs, hf⟩ | ⟨o, hio, hs, hf⟩ <;> rw [hf]
    · exact hsame fun _ => rfl
    · exact hsame fun _ => rfl
    · exact hset hio rfl
    · exact hset hio (LogObject.epoch_fill ..)
  | @trim e p s' i' v last hv hm =>
    show objectEpoch u (b.trim (dataOid u s' i') e p false false).2 s i ≤ _
    rcases b.trim_cases (dataOid u s' i') e p false false with ⟨-, -, ht⟩ | ⟨err, -, ht⟩ |
      ⟨o, hio, -, ht⟩ <;> rw [ht]
    · exact hsame fun _ => rfl
    · exact hsame fun _ => rfl
    · exact hset hio (LogObject.epoch_trim ..)
  | @trimRange e p s' i' v stripe full hv hs hmin hmem =>
    show objectEpoch u (b.trim (dataOid u s' i') e p true full).2 s i ≤ _
    rcases b.trim_cases (dataOid u s' i') e p true full with ⟨-, -, ht⟩ | ⟨err, -, ht⟩ |
      ⟨o, hio, -, ht⟩ <;> rw [ht]
    · exact hsame fun _ => rfl
    · exact hsame fun _ => rfl
    · exact hset hio (LogObject.epoch_trim ..)
  | @«seal» s' i' e h0 he =>
    show objectEpoch u (b.seal (dataOid u s' i') e).2 s i ≤ max _ e
    rcases b.seal_cases (dataOid u s' i') e with ⟨-, hs⟩ | ⟨-, -, -, hs⟩ | ⟨o, -, -, hs⟩ |
      ⟨o, -, -, -, hs⟩ | ⟨-, -, hs⟩ <;> rw [hs]
    · exact le_max_left _ _
    · rw [objectEpoch_setLog]
      split
      · exact le_max_right _ _
      · exact le_max_left _ _
    · exact le_max_left _ _
    · rw [objectEpoch_setLog]
      split
      · exact le_max_right _ _
      · exact le_max_left _ _
    · exact le_max_left _ _
  | maxPos => exact hsame fun _ => rfl

/-! ## Runs without crashes -/

/-- No client has died. -/
def World.Alive (w : World) : Prop := ∀ c ∈ w.clients, c.shared.aborted = false

/-- A move keeps its client alive. -/
theorem Moves.aborted {pc pc' : Pc} (h : Moves name c pc b sh pc' b') :
    sh.aborted = c.shared.aborted := by
  cases h with
  | call call next hm => rfl
  | access sh pc' hm =>
    rcases Pc.move_memory hm with hq | ⟨lb, e, blob, -, hi, -⟩ | ⟨data, v, i, seq, -, hd⟩ |
      ⟨hoid, pfx, id, -, -, rfl⟩ | ⟨-, -, rfl⟩
    · exact hq.aborted
    · obtain ⟨view, seqs, seq, -, -, rfl⟩ := hi.view
      rfl
    · rw [hd.shared]
    · rfl
    · rfl

/-- Replacing a client by one that is alive as well. -/
theorem World.Alive.of_set {cid : Nat} {c c' : Client} (h : w'.Alive)
    (hc : w.clients[cid]? = some c) (hclients : w'.clients = w.clients.set cid c')
    (heq : c'.shared.aborted = c.shared.aborted) : w.Alive := by
  intro c₁ hc₁
  obtain ⟨i, hi⟩ := List.mem_iff_getElem?.mp hc₁
  by_cases hic : i = cid
  · subst hic
    rw [hc] at hi
    cases hi
    rw [← heq]
    refine h c' (List.mem_of_getElem? (i := i) ?_)
    rw [hclients, List.getElem?_set_self (lt_of_getElem?_eq_some hc)]
  · refine h c₁ (List.mem_of_getElem? (i := i) ?_)
    rw [hclients, List.getElem?_set_ne (Ne.symm hic)]
    exact hi

/-- The dead stay dead. -/
theorem Inv.alive_of_step (hI : Inv u name w) (h : w.step a = some w') (hw : w'.Alive) :
    w.Alive := by
  cases a with
  | «open» options host =>
    cases h
    exact fun c hc => hw c (List.mem_append_left _ hc)
  | invoke cid r =>
    simp only [World.step] at h
    split at h
    · cases h
    · next c hc =>
      split at h
      · cases h
        exact hw.of_set hc rfl rfl
      · cases h
  | close cid =>
    simp only [World.step] at h
    split at h
    · cases h
    · next c hc =>
      split at h
      · cases h
        exact hw.of_set hc rfl rfl
      · cases h
  | run cid tid =>
    obtain ⟨c, t, hc, ha, ht, rfl | ⟨sh, pc, hst, -, -, -, hmv⟩⟩ := hI.run_cases h
    · exfalso
      have hdead := hw _ (List.mem_of_getElem? (i := cid)
        (List.getElem?_set_self (lt_of_getElem?_eq_some hc)))
      cases hdead
    · exact hw.of_set hc hst.clients hmv.aborted

/-- The step of a thread inside `propose_sequencer`. -/
theorem Pc.move_propose {ppc : ProposePc} {α : Type} {call : Call Fbs.View α} {next : α → Pc}
    (hm : (Pc.opener (.propose ppc)).move name c = some (.backend call next)) :
    ∃ lb k, c.shared.backend = some lb ∧ proposeSequencer lb c.shared ppc = some (.backend call k) ∧
      ∀ r pc', k r = .goto pc' → next r = .opener (.propose pc') := by
  obtain ⟨k, hk, rfl⟩ := Move.map_backend hm
  simp only [openEntry] at hk
  split at hk
  · cases hk
  · next lb hlb =>
    obtain ⟨k', hk', rfl⟩ := Move.map_backend hk
    refine ⟨lb, k', hlb, hk', fun r pc' hr => ?_⟩
    dsimp only
    rw [hr]
    rfl

/-- A proposer's next step is a call. -/
theorem Proposing.not_memory {ppc : ProposePc} {e : Nat} {pc' : Pc} (hp : ppc.Proposing e) :
    (Pc.opener (.propose ppc)).move name c ≠ some (.memory sh pc') := by
  intro hm
  obtain ⟨s, hk, rfl⟩ := Move.map_memory hm
  simp only [openEntry] at hk
  split at hk
  · cases hk
  · obtain ⟨s', hk', -⟩ := Move.map_memory hk
    cases ppc with
    | «seal» => cases hk'
    | maxPos => cases hk'
    | propose => cases hk'
    | _ => exact hp.elim

/-- A pending proposal stays, unless its thread is the one that runs. -/
theorem Inv.pending_step (hI : Inv u name w) (h : w.step a = some w') {cid tid : Nat} {t : Thread}
    {ppc : ProposePc} {e : Nat} (ht : w.thread? cid tid = some t)
    (hpc : t.pc = .opener (.propose ppc)) (hp : ppc.Proposing e) (ha : a ≠ .run cid tid) :
    w'.Pending e := by
  obtain ⟨t', ht', -, -⟩ := hI.thread_persists h ht
  refine ⟨cid, tid, t', ppc, ht', ?_, hp⟩
  cases hI.thread_step h ht' with
  | same hsame =>
    rw [ht] at hsame
    cases hsame
    exact hpc
  | fresh hnone => rw [ht] at hnone; cases hnone
  | closing t₀ hold hop heq =>
    rw [ht] at hold
    cases hold
    rw [hpc] at hop
    cases hop
  | ran c t₀ sh pc hact => exact absurd hact ha

theorem LogOk.objectEpoch_le (h : LogOk u name b) (s i : Nat) :
    objectEpoch u b s i ≤ latestEpoch u b + 1 := by
  rcases Nat.eq_zero_or_pos (objectEpoch u b s i) with h0 | hpos
  · omega
  · obtain ⟨o, ho⟩ := exists_objectAt hpos
    rw [objectEpoch_of_objectAt ho]
    exact (h.object s i o ho).epoch_le

/-- **Step**: an object ahead of the views has a pending proposal. -/
theorem Inv.pending_of_ahead (hI : Inv u name w) (h : w.step a = some w') (hw : w'.Alive)
    (hold : ∀ s i, objectEpoch u w.backend s i = latestEpoch u w.backend + 1 →
      w.Pending (latestEpoch u w.backend + 1)) (s i : Nat)
    (hs : objectEpoch u w'.backend s i = latestEpoch u w'.backend + 1) :
    w'.Pending (latestEpoch u w'.backend + 1) := by
  have hk := (hI.step h).2
  -- a step that leaves the stored log alone
  have hquiet : w'.backend = w.backend →
      (∀ cid tid t ppc, w.thread? cid tid = some t → t.pc = .opener (.propose ppc) →
        ppc.Proposing (latestEpoch u w.backend + 1) → a ≠ .run cid tid) →
      w'.Pending (latestEpoch u w'.backend + 1) := by
    intro hb hne
    rw [hb] at hs ⊢
    obtain ⟨cid, tid, t, ppc, ht, hpc, hp⟩ := hold s i hs
    exact hI.pending_step h ht hpc hp (hne cid tid t ppc ht hpc hp)
  cases a with
  | «open» options host =>
    have hb : w'.backend = w.backend := by
      cases h
      rfl
    exact hquiet hb fun _ _ _ _ _ _ _ => by simp
  | invoke cid r =>
    rcases hI.backend_step h with hb | ⟨_, _, _, _, _, _, _, hact, -⟩
    · exact hquiet hb fun _ _ _ _ _ _ _ => by simp
    · cases hact
  | close cid =>
    rcases hI.backend_step h with hb | ⟨_, _, _, _, _, _, _, hact, -⟩
    · exact hquiet hb fun _ _ _ _ _ _ _ => by simp
    · cases hact
  | run cid tid =>
    obtain ⟨c, t, hc, -, ht, rfl | ⟨sh, pc, hst, -, -, hpc, hmv⟩⟩ := hI.run_cases h
    · exfalso
      have hdead := hw _ (List.mem_of_getElem? (i := cid)
        (List.getElem?_set_self (lt_of_getElem?_eq_some hc)))
      cases hdead
    · have hthread : w.thread? cid tid = some t := World.thread?_eq_some.mpr ⟨c, hc, ht⟩
      have hcok := hI.clients c (List.mem_of_getElem? hc)
      have hpcok := hcok.threads t (List.mem_of_getElem? ht)
      have hnew : w'.thread? cid tid =
          some (t.goto w.clock pc (newEntries w.backend w'.backend)) := by
        rw [World.thread?_set_self hst.clients (lt_of_getElem?_eq_some hc)]
        exact List.getElem?_set_self (lt_of_getElem?_eq_some ht)
      generalize hb' : w'.backend = b' at hmv hs hk ⊢
      cases hmv with
      | access sh pc hm =>
        rw [hb'] at hquiet
        refine hquiet rfl fun cid' tid' t' ppc ht' hop hp hact => ?_
        cases hact
        rw [hthread] at ht'
        cases ht'
        rw [hop] at hm
        exact Proposing.not_memory hp hm
      | call call next hm =>
        have hcall := Pc.move_callOk hI.log hcok.shared hpcok hm
        have hle := hcall.objectEpoch_le hI.log s i
        have hsealle : call.sealEpoch ≤ latestEpoch u w.backend + 1 := by
          cases hcall with
          | «seal» s i h0 he => exact he
          | _ => exact Nat.zero_le _
        have hold' := hI.log.objectEpoch_le s i
        have hmono := hk.grows.latest_le
        have hlat : latestEpoch u (w.backend.exec call).2 = latestEpoch u w.backend := by omega
        rw [hlat] at hs ⊢
        -- the thread that runs is a proposer and stays one
        have hself : ∀ ppc, t.pc = .opener (.propose ppc) →
            ppc.Proposing (latestEpoch u w.backend + 1) →
            w'.Pending (latestEpoch u w.backend + 1) := by
          intro ppc hop hp
          rw [hop] at hm hpcok
          obtain ⟨lb, k, hlb, hk', hgo⟩ := Pc.move_propose hm
          rcases hI.log.proposing_step (hcok.shared.backend lb hlb) hpcok hp hk' with
            ⟨pc', hnext, hp'⟩ | hlt
          · exact ⟨cid, tid, _, pc', hnew, hgo _ _ hnext, hp'⟩
          · omega
        rcases Nat.lt_or_ge (objectEpoch u w.backend s i) (latestEpoch u w.backend + 1) with
          hlt | hge
        · -- the epoch was raised by this call
          have hraised : call.sealEpoch = latestEpoch u w.backend + 1 := by omega
          rcases Pc.move_sealEpoch hpcok _ call next hm with hle' |
            ⟨ppc, hop, hp⟩
          · omega
          · rw [hraised] at hp
            exact hself ppc hop hp
        · obtain ⟨cid', tid', t', ppc, ht', hop, hp⟩ := hold s i (by omega)
          by_cases heq : Action.run cid tid = .run cid' tid'
          · cases heq
            rw [hthread] at ht'
            cases ht'
            exact hself ppc hop hp
          · exact hI.pending_step h ht' hop hp heq

/-- An operation that waits is behind. -/
theorem OpOk.behind {r : Request} {pc : OpPc} {wait : WaitPc} (h : OpOk u b r pc)
    (hw : pc.wait? = some wait) : Behind u b wait.epoch := by
  have hwait : WaitOk u b wait := by
    cases pc with
    | wait p pe pc =>
      cases hw
      exact h.2
    | expand p pe pc =>
      cases pc with
      | waitNew pc =>
        cases hw
        exact h.2
      | waitStale n pc =>
        cases hw
        exact h.2
      | _ => cases hw
    | advance p pc =>
      cases pc with
      | wait pc =>
        cases hw
        exact h.2
      | _ => cases hw
    | _ => cases hw
  cases wait with
  | enter epoch => exact hwait
  | blocked waiter => exact hwait

/-- **No orphan waits**: as long as no client dies, an object is at most one epoch ahead of the
    views, and then a proposal of that epoch is pending; so for an operation that waits for a
    view newer than `v` there is one, or a proposal is pending. -/
theorem no_orphan_wait {options : Options} {host : Host}
    (h₀ : World.init name u options host = some w₀) (h : Lib.Reaches World.step w₀ w)
    (hw : w.Alive) :
    (∀ s i, objectEpoch u w.backend s i ≤ latestEpoch u w.backend + 1) ∧
    (∀ s i, objectEpoch u w.backend s i = latestEpoch u w.backend + 1 →
      w.Pending (latestEpoch u w.backend + 1)) ∧
    (∀ cid tid t r pc wait, w.thread? cid tid = some t → t.pc = .op r pc →
      pc.wait? = some wait →
      wait.epoch < latestEpoch u w.backend ∨ w.Pending (latestEpoch u w.backend + 1)) := by
  have hI := (Inv.init h₀).of_reaches h
  have hinv : Inv u name w ∧ (w.Alive → ∀ s i,
      objectEpoch u w.backend s i = latestEpoch u w.backend + 1 →
      w.Pending (latestEpoch u w.backend + 1)) := by
    refine h.invariant (I := fun w => Inv u name w ∧ (w.Alive → ∀ s i,
      objectEpoch u w.backend s i = latestEpoch u w.backend + 1 →
      w.Pending (latestEpoch u w.backend + 1))) ?_ ⟨Inv.init h₀, fun _ s i hs => ?_⟩
    · rintro v a v' ⟨hv, hP⟩ - hs
      exact ⟨(hv.step hs).1, fun hal s i => hv.pending_of_ahead hs hal
        (hP (hv.alive_of_step hs hal)) s i⟩
    · unfold objectEpoch RAMBackend.epochAt at hs
      rw [logAt_init h₀] at hs
      cases hs
  refine ⟨hI.log.objectEpoch_le, hinv.2 hw, fun cid tid t r pc wait ht hpc hwait => ?_⟩
  obtain ⟨c, hc, htc⟩ := World.thread?_eq_some.mp ht
  have hok := (hI.clients c (List.mem_of_getElem? hc)).threads t (List.mem_of_getElem? htc)
  rw [hpc] at hok
  rcases OpOk.behind hok hwait with hlt | ⟨s, i, hlt⟩
  · exact Or.inl hlt
  · have hle := hI.log.objectEpoch_le s i
    rcases Nat.lt_or_ge wait.epoch (latestEpoch u w.backend) with hlt' | hge
    · exact Or.inl hlt'
    · exact Or.inr (hinv.2 hw s i (by omega))

set_option maxRecDepth 100000 in
/-- In the small log, the first object is sealed ahead while the first client proposes. -/
theorem no_orphan_wait_sample :
    ∃ w, Sample.world (Sample.steps 0 0 7) = some w ∧
      objectEpoch Sample.uuid w.backend 0 0 = latestEpoch Sample.uuid w.backend + 1 ∧
      w.Pending (latestEpoch Sample.uuid w.backend + 1) := by
  have hrun : (Sample.world (Sample.steps 0 0 7)).map (fun w =>
      (objectEpoch Sample.uuid w.backend 0 0, latestEpoch Sample.uuid w.backend,
        w.clients.all fun c => !c.shared.aborted)) = some (2, 1, true) := by decide +kernel
  obtain ⟨w, hw, heq⟩ := Option.map_eq_some_iff.mp hrun
  simp only [Prod.mk.injEq, List.all_eq_true, Bool.not_eq_true'] at heq
  obtain ⟨hep, hlat, halive⟩ := heq
  obtain ⟨w₀, h₀, h⟩ := Sample.reaches hw
  have hs : objectEpoch Sample.uuid w.backend 0 0 = latestEpoch Sample.uuid w.backend + 1 := by
    omega
  exact ⟨w, hw, hs, (no_orphan_wait h₀ h halive).2.1 0 0 hs⟩

end

end ZLog
