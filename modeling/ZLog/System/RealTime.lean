import ZLog.System.Opens
import ZLog.System.Unwrapped

/-!
# Appends in real time

An append that has returned has passed its position: the counter of its client is beyond it, and so
is the seed of every newer sequencer.  So whoever reads a sequencer later reads more than the
position, unless its own sequencer is an old one and the position comes from a newer one.

## Main results

- `passed_of_run`: the position of an append that has returned is passed.
- `tail_up_to_date`: a `CheckTail` returns more than the positions of the appends before it.
- `appends_in_order`: the positions of appends follow their order.
-/

namespace ZLog

section

variable {u : Uuid} {name : String} {b b' : Store} {vs vs' : List View} {sh sh' : Shared}
  {w w' w₀ : World} {a : Action} {c c' : Client} {cid p : Nat} {x y : OpRecord}

/-! ## Positions and seeds -/

/-- The position of an append in flight is not below the seed of its client. -/
def Seeded (vs : List View) (sh : Shared) (pc : OpPc) : Prop :=
  ∀ p, pc.position? = some p →
    ∃ e v cfg, ViewAt vs e v ∧ v.seqConfig = some cfg ∧ sh.Owns cfg ∧ cfg.position ≤ p

theorem Seeded.mono {pc : OpPc} (h : Seeded vs sh pc) (hp : vs <+: vs')
    (hb : ∀ lb, sh.backend = some lb → sh'.backend = some lb) : Seeded vs' sh' pc := by
  intro p hpos
  obtain ⟨e, v, cfg, hv, hcfg, ho, hle⟩ := h p hpos
  exact ⟨e, v, cfg, hv.mono hp, hcfg, ho.mono hb, hle⟩

/-- A step of an append keeps its position above the seed. -/
theorem Seeded.step {data : String} {opc opc' : OpPc} (hseq : SeqOk vs c.shared)
    (hs : Seeded vs c.shared opc) (hfirst : ∀ v i, opc = .sequence v i → i = 0)
    (hdraws : ∀ sh' seq p, DrawsNext c.shared sh' opc seq p → p = c.shared.counter)
    (hb : ∀ lb, c.shared.backend = some lb → sh.backend = some lb)
    (h : Moves name c (.op (.append data) opc) b sh (.op (.append data) opc') b') :
    Seeded vs sh opc' := by
  intro p hp
  rcases h.lands_op (P := fun sh' pc' => ∀ p, pc'.position? = some p → opc.position? = some p ∨
    ∃ seq, DrawsNext c.shared sh' opc seq p) (fun lb _ => appendOp_position opc hfirst) p hp
    with hold | ⟨seq, hdraw⟩
  · exact hs.mono (List.prefix_refl _) hb p hold
  · obtain ⟨-, e, v, cfg, -, -, hv, hcfg, ho, hle⟩ := hseq.made hdraw.ne_nil
    exact ⟨e, v, cfg, hv, hcfg, ho.mono hb, hdraws sh seq p hdraw ▸ hle⟩

/-- Every append in flight holds a position above the seed of its client. -/
def SeededAll (u : Uuid) (w : World) : Prop :=
  ∀ c ∈ w.clients, ∀ t ∈ c.threads, ∀ data pc, t.pc = .op (.append data) pc →
    Seeded (viewsOf u w.backend) c.shared pc

/-- The step that draws a position has a seed, and later steps keep it. -/
theorem SeededAll.step (hA : SeededAll u w) (hG : Good u name w) (hS : Sequencers u w)
    (hO : Owners u name w) (hok : Unwrapped u w a) (h : w.step a = some w') : SeededAll u w' := by
  have hI := hG.toInv
  have hgrow := (hI.step h).2.grows.views
  intro c' hmem'
  obtain ⟨cid, hc'⟩ := List.mem_iff_getElem?.mp hmem'
  have hs := hI.client_step h hc'
  -- by what a step does to the threads of one client
  refine hs.threads_run
    (fun sh pc => ∀ data opc, pc = .op (.append data) opc → Seeded (viewsOf u w.backend) sh opc)
    (fun sh pc => ∀ data opc, pc = .op (.append data) opc → Seeded (viewsOf u w'.backend) sh opc)
    ?_ ?_ ?_ ?_ ?_ ?_
  · intro c hc t ht data opc hpc
    exact hA c (List.mem_of_getElem? hc) t ht data opc hpc
  · intro t ht data opc hpc
    simp only [Client.newThreads, List.mem_cons, List.not_mem_nil, or_false] at ht
    rcases ht with rfl | rfl | rfl | rfl <;> cases hpc
  · intro r _ data opc hpc p hp
    cases hpc
    cases hp
  · intro data opc hpc
    cases hpc
  · intro c pc hc hold data opc hpc
    exact (hold data opc hpc).mono hgrow (hs.later hS hI hO hc).backend
  · -- the thread that moves: it is an append before and after
    intro c tid t sh pc hc ht ha hpc hmv hold data opc' heq
    subst heq ha
    have hmem := List.mem_of_getElem? hc
    obtain ⟨opc, htpc, -, -⟩ := hpc.op hmv
    obtain ⟨-, -, hb⟩ := hS.memory hI hO hc ht hmv
    have hfirst : ∀ v i, opc = .sequence v i → i = 0 := by
      rintro v i rfl
      -- in this state there is one sequencer, so its index is 0
      exact hS.reads c hmem t (List.mem_of_getElem? ht) _ v i htpc (Or.inl ⟨data, rfl⟩)
    have hseeded := hold data opc htpc
    rw [htpc] at hmv
    exact (Seeded.step (hS.seqs c hmem) hseeded hfirst (fun _ _ _ hd => hok.drawn hc ht htpc hd) hb
      hmv).mono hgrow fun lb hlb => hlb

theorem SeededAll.of_run {options : Options} {host : Host}
    (h₀ : World.init name u options host = some w₀)
    (h : Lib.Run World.step (Unwrapped u) w₀ w) : SeededAll u w := by
  refine h.invariant_reaches (I := SeededAll u) ?_ ?_
  · intro v a v' hr hA hok hs
    have hreach := hr.mono fun _ _ _ => trivial
    exact hA.step ((Good.init h₀).of_reaches hreach) (.of_reaches h₀ hreach) (.of_reaches h₀ hreach)
      hok hs
  · intro c hc t ht data pc hpc
    obtain ⟨cid, hcid⟩ := List.mem_iff_getElem?.mp hc
    obtain ⟨tid, htid⟩ := List.mem_iff_getElem?.mp ht
    exact absurd hpc (not_op_init h₀ (World.thread?_eq_some.mpr ⟨c, hcid, htid⟩))

/-! ## Appends that returned -/

/-- The position is one from the seed of the client on, below its counter, and below the seed of
    every newer configuration. -/
def Passed (u : Uuid) (w : World) (cid p : Nat) : Prop :=
  ∃ c e v cfg, w.clients[cid]? = some c ∧ p < c.shared.counter ∧
    ViewAt (viewsOf u w.backend) e v ∧ v.seqConfig = some cfg ∧ c.shared.Owns cfg ∧
    cfg.position ≤ p ∧ ∀ e' v' cfg', ViewAt (viewsOf u w.backend) e' v' →
      v'.seqConfig = some cfg' → cfg.epoch < cfg'.epoch → p < cfg'.position

/-- A settled position stays passed. -/
theorem Passed.step (hp : Passed u w cid p) (hS : Sequencers u w) (hI : Inv u name w)
    (hO : Owners u name w) (hok : Unwrapped u w a) (h : w.step a = some w')
    (hslot : positionSlot u w'.backend p ≠ .unwritten) : Passed u w' cid p := by
  obtain ⟨c, e, v, cfg, hc, hlt, hv, hcfg, ho, hseed, hnewer⟩ := hp
  obtain ⟨c', hc'⟩ := World.client_persists h hc
  have hlater := (hI.client_step h hc').later hS hI hO hc
  have hgrow := (hI.step h).2.grows.views
  refine ⟨c', e, v, cfg, hc', lt_of_lt_of_le hlt hlater.counter, hv.mono hgrow, hcfg,
    ho.mono hlater.backend, hseed, ?_⟩
  intro e' v' cfg' hv' hcfg' hlt'
  rcases (hI.views_step h).config hv' hcfg' with ⟨e₀, v₀, hv₀, hcfg₀⟩ |
    ⟨_, _, _, _, _, _, _, _, rfl, hcl, ht, -, hpc, -, -, hacc, -⟩
  · exact hnewer e₀ v₀ cfg' hv₀ hcfg₀ hlt'
  · -- nothing is stored from the seed of a new sequencer on
    by_contra hge
    exact hslot ((hI.accepts_unwrapped hacc (hok.room _ _ _ _ _ _ _ rfl hcl ht hpc)).free p (by omega))

/-- A write with a view of an older configuration stays below the seed. -/
theorem LogOk.write_below {e : Nat} {v v' : View} {cfg cfg' : SequencerConfig} {s i ep p : Nat}
    {last : Bool} {data : String} (h : LogOk u name b) (hsealed : SeedsSealed u b)
    (hv : ViewAt (viewsOf u b) ep v)
    (hm : v.objectMap.map p = .ok (some (Stripe.oidAt s i), last))
    (hw : (b.write (dataOid u s i) data ep p).1 = .ok ()) (hcfg : v.seqConfig = some cfg)
    (hv' : ViewAt (viewsOf u b) e v') (hcfg' : v'.seqConfig = some cfg')
    (hlt : cfg.epoch < cfg'.epoch) : p < cfg'.position := by
  obtain ⟨v₀, hv₀, hcfg₀⟩ := h.history.config_origin hv' hcfg'
  by_contra hge
  have hnew : (dataOid u s i, p) ∈ newEntries b (b.exec (.write (dataOid u s i) data ep p)).2 := by
    show _ ∈ newEntries b (b.write (dataOid u s i) data ep p).2
    rw [newEntries_write hw]
    exact List.mem_singleton.mpr rfl
  obtain ⟨ep', hent, hle⟩ := h.entry_epoch_le hv₀ (hsealed _ v₀ cfg' hv₀ hcfg₀ rfl)
    (.write data hv hm) hnew (by omega)
  cases hent
  -- the view of the write is newer than the configuration, so it would have it
  obtain ⟨cfg'', hc'', hle', -⟩ := h.history.config_mono hv₀ hv hle hcfg₀
  rw [hcfg] at hc''
  cases hc''
  omega

/-- An append returns when the backend has accepted its write. -/
theorem appendOp_wrote (options : Options) {lb : LogBackend} {data : String} {v : VersionedView}
    {oid : String} {p : Nat} {pe : Option Nat} :
    Gives b sh (fun _ pc' => ∀ q, pc' = .done (.ok (.position q)) →
      q = p ∧ (b.write (lb.oid oid) data v.epoch p).1 = .ok ())
      (appendOp data options lb sh (.io v oid p pe)) := by
  have hexec : b.exec (.write (lb.oid oid) data v.epoch p) = b.write (lb.oid oid) data v.epoch p :=
    rfl
  simp only [appendOp, Gives, hexec]
  intro q hq
  split at hq
  · next hw =>
    cases hq
    exact ⟨rfl, hw⟩
  · cases hq
  · cases hq
  · cases hq
  · cases hq

/-- The write with which an append returns. -/
structure WriteStep (u : Uuid) (w : World) (x : OpRecord) (data : String) (p : Nat) (c : Client)
    (t : Thread) (v : VersionedView) (s i : Nat) (pe : Option Nat) : Prop where
  client : w.clients[x.cid]? = some c
  thread : c.threads[x.tid]? = some t
  writing : t.pc = .op (.append data) (.io v (Stripe.oidAt s i) p pe)
  invoked : t.invokedAt = x.invoked
  held : Held u w.backend v
  mapped : ∃ last, v.objectMap.map p = .ok (some (Stripe.oidAt s i), last)
  wrote : (w.backend.write (dataOid u s i) data v.epoch p).1 = .ok ()

/-- An append returns by the step that writes. -/
theorem ReturnStep.write (hG : Good u name w) (hr : ReturnStep u name w w' a x) {data : String}
    (hreq : x.request = .append data) (hres : x.result = .ok (.position p)) :
    ∃ c t v s i pe, WriteStep u w x data p c t v s i pe := by
  obtain ⟨c, t, pc, hc, ht, hpc, hinv, -, sh, hmv⟩ := hr.running
  rw [hreq, hres] at hmv
  rw [hreq] at hpc
  rw [hpc] at hmv
  -- only the write returns a position
  have hio : ∀ q, OpPc.done (.ok (.position p)) = .done (.ok (.position q)) →
      ∃ v oid pe, pc = .io v oid q pe := by
    apply hmv.lands_op (P := fun _ pc' => ∀ q, pc' = .done (.ok (.position q)) →
      ∃ v oid pe, pc = .io v oid q pe)
    intro lb _
    exact appendOp_returns pc
  obtain ⟨v, oid, pe, rfl⟩ := hio p rfl
  have hcok := hG.clients c (List.mem_of_getElem? hc)
  have hok := hcok.threads t (List.mem_of_getElem? ht)
  rw [hpc] at hok
  obtain ⟨-, -, hv, s, i, last, rfl, hm⟩ := hok
  -- and it returns the position that it wrote
  have hwrote : ∀ q, OpPc.done (.ok (.position p)) = .done (.ok (.position q)) →
      q = p ∧ (w.backend.write (dataOid u s i) data v.epoch p).1 = .ok () := by
    refine hmv.gives_op (P := fun _ pc' => ∀ q, pc' = .done (.ok (.position q)) →
      q = p ∧ (w.backend.write (dataOid u s i) data v.epoch p).1 = .ok ()) ?_
    intro lb hlb
    have hoid : lb.oid (Stripe.oidAt s i) = dataOid u s i :=
      HandleOk.oid (hcok.shared.backend lb hlb) s i
    rw [← hoid]
    exact appendOp_wrote c.options
  exact ⟨c, t, v, s, i, pe, hc, ht, hpc, hinv, hv, ⟨last, hm⟩, (hwrote p rfl).2⟩

/-- The position with which an append returns is passed. -/
theorem Passed.of_return (hG : Good u name w) (hS : Sequencers u w) (hO : Owners u name w)
    (hA : SeededAll u w) (hsealed : SeedsSealed u w.backend) (hok : Unwrapped u w a)
    (h : w.step a = some w') (hr : ReturnStep u name w w' a x) {data : String}
    (hreq : x.request = .append data) (hres : x.result = .ok (.position p))
    (hslot : positionSlot u w'.backend p ≠ .unwritten) : Passed u w' x.cid p := by
  have hI := hG.toInv
  obtain ⟨c, t, v, s, i, pe, hw⟩ := hr.write hG hreq hres
  have hmem := List.mem_of_getElem? hw.client
  have htmem := List.mem_of_getElem? hw.thread
  have happend := hS.appends c hmem t htmem data _ hw.writing
  obtain ⟨cfg, hcfg, ho⟩ := happend.leads v rfl
  obtain ⟨e₀, v₀, cfg₀, hv₀, hcfg₀, ho₀, hseed⟩ := hA c hmem t htmem data _ hw.writing p rfl
  -- the client has one configuration
  obtain ⟨lb, hlb, htok⟩ := ho
  obtain ⟨lb₀, hlb₀, htok₀⟩ := ho₀
  rw [hlb] at hlb₀
  cases hlb₀
  obtain rfl : cfg₀ = cfg := hO.own_unique hmem hlb hv₀ hw.held hcfg₀ hcfg htok₀ htok
  obtain ⟨last, hm⟩ := hw.mapped
  have hpassed : Passed u w x.cid p := by
    refine ⟨c, v.epoch, v.view, cfg₀, hw.client, happend.drawn p rfl, hw.held, hcfg,
      ⟨lb, hlb, htok⟩, hseed, ?_⟩
    intro e' v' cfg' hv' hcfg' hlt
    exact hI.log.write_below hsealed hw.held hm hw.wrote hcfg hv' hcfg' hlt
  exact hpassed.step hS hI hO hok h hslot

theorem Inv.appended_slot (hI : Inv u name w) (hx : w.Returned x) {data : String}
    (hreq : x.request = .append data) (hres : x.result = .ok (.position p)) :
    positionSlot u w.backend p ≠ .unwritten := by
  have hdone := hI.doneOk hx
  rw [hreq, hres] at hdone
  rcases hdone with h | h
  · rw [h]
    exact Slot.noConfusion
  · rw [h]
    exact Slot.noConfusion

/-- **Appends that returned** have passed their positions. -/
theorem passed_of_run {options : Options} {host : Host}
    (h₀ : World.init name u options host = some w₀) (h : Lib.Run World.step (Unwrapped u) w₀ w)
    (hx : w.Returned x) {data : String} (hreq : x.request = .append data)
    (hres : x.result = .ok (.position p)) : Passed u w x.cid p := by
  induction h with
  | refl => exact absurd hx (not_returned_init h₀)
  | tail hrun hok hstep ih =>
    have hreach := hrun.mono fun _ _ _ => trivial
    have hG := (Good.init h₀).of_reaches hreach
    have hS := Sequencers.of_reaches h₀ hreach
    have hO := Owners.of_reaches h₀ hreach
    have hslot := (hG.step hstep).toInv.appended_slot hx hreq hres
    rcases hG.return_step hstep hx with hold | hnew
    · exact (ih hold).step hS hG.toInv hO hok hstep hslot
    · exact .of_return hG hS hO (.of_run h₀ hrun) (.of_run h₀ hrun) hok hstep hnew hreq hres hslot

/-! ## Old sequencers -/

/-- A newer sequencer than the one of the client has a seed up to the position. -/
def Outrun (u : Uuid) (b : Store) (sh : Shared) (p : Nat) : Prop :=
  ∃ e v cfg e' v' cfg', ViewAt (viewsOf u b) e v ∧ v.seqConfig = some cfg ∧ sh.Owns cfg ∧
    ViewAt (viewsOf u b) e' v' ∧ v'.seqConfig = some cfg' ∧ cfg.epoch < cfg'.epoch ∧
    cfg'.position ≤ p

/-- A newer sequencer than the one of the client has handed out a position that has been used. -/
def Superseded (u : Uuid) (b : Store) (sh : Shared) : Prop :=
  ∃ p, Outrun u b sh p ∧ positionSlot u b p ≠ .unwritten

theorem Outrun.mono (h : Outrun u b sh p) (hp : viewsOf u b <+: viewsOf u b')
    (hb : ∀ lb, sh.backend = some lb → sh'.backend = some lb) : Outrun u b' sh' p := by
  obtain ⟨e, v, cfg, e', v', cfg', hv, hcfg, ho, hv', hcfg', hlt, hle⟩ := h
  exact ⟨e, v, cfg, e', v', cfg', hv.mono hp, hcfg, ho.mono hb, hv'.mono hp, hcfg', hlt, hle⟩

/-- **Counters**: a counter is beyond a position that has been passed, or the position comes from a
    newer sequencer. -/
theorem Passed.counter (hp : Passed u w cid p) (hI : Inv u name w) (hS : Sequencers u w)
    (hO : Owners u name w) {j : Nat} (hc : w.clients[j]? = some c) (hne : c.shared.seqs ≠ []) :
    p < c.shared.counter ∨ Outrun u w.backend c.shared p := by
  obtain ⟨d, e', v', cfg', hd, hlt, hv', hcfg', ho', hseed, hnewer⟩ := hp
  obtain ⟨-, e, v, cfg, -, -, hv, hcfg, ho, hle⟩ :=
    (hS.seqs c (List.mem_of_getElem? hc)).made hne
  rcases Nat.lt_trichotomy cfg'.epoch cfg.epoch with hepoch | hepoch | hepoch
  · exact Or.inl (lt_of_lt_of_le (hnewer e v cfg hv hcfg hepoch) hle)
  · -- one configuration has one client
    left
    obtain rfl := hI.log.history.config_unique hv' hcfg' hv hcfg hepoch
    obtain ⟨lb, hlb, htok⟩ := ho
    obtain ⟨lb', hlb', htok'⟩ := ho'
    obtain rfl := hO.client_unique hd hc hlb' hlb (htok'.symm.trans htok)
    rw [hd] at hc
    cases hc
    exact hlt
  · exact Or.inr ⟨e, v, cfg, e', v', cfg', hv, hcfg, ho, hv', hcfg', hepoch, hseed⟩

/-! ## Checking the tail -/

/-- What returned before an operation was invoked had returned before its last step. -/
theorem Good.returned_earlier (hG : Good u name w) (h : w.step a = some w') (hx : w'.Returned x)
    {k : Nat} (hk : k < w'.clock) (hlt : x.done < k) : w.Returned x := by
  rcases hG.return_step h hx with hold | hnew
  · exact hold
  · have hclock := World.clock_step h
    have hnow := hnew.now
    omega

/-- `CheckTail` returns what the counter shows. -/
theorem tailOp_returns (pc : OpPc) :
    Lands sh (fun _ pc' => ∀ q, pc' = .done (.ok (.position q)) →
      ∃ v i seq, pc = .sequence v i ∧ sh.seqs[i]? = some seq ∧ q = seq.tail)
      (tailOp sh pc) := by
  cases pc with
  | start p pe =>
    refine Lands.withView fun v hv => ?_
    split
    · intro q hq
      cases hq
    · intro q hq
      cases hq
  | sequence v i =>
    simp only [tailOp]
    split
    · trivial
    · next seq hseq =>
      intro q hq
      cases hq
      exact ⟨v, i, seq, rfl, hseq, rfl⟩
  | _ => trivial

/-- A `CheckTail` reads its sequencer only while the sequencer is not superseded. -/
def FreshRead (u : Uuid) (w : World) (a : Action) : Prop :=
  ∀ cid tid c t v i, a = .run cid tid → w.clients[cid]? = some c → c.threads[tid]? = some t →
    t.pc = .op .checkTail (.sequence v i) → ¬ Superseded u w.backend c.shared

/-- The step in which a `CheckTail` returns reads the counter of its client. -/
theorem ReturnStep.read (hS : Sequencers u w) (hok : Unwrapped u w a)
    (hr : ReturnStep u name w w' a y)
    (hreq : y.request = .checkTail) {t : Nat} (hres : y.result = .ok (.position t)) :
    ∃ c t₁ v, w.clients[y.cid]? = some c ∧ c.threads[y.tid]? = some t₁ ∧
      t₁.pc = .op .checkTail (.sequence v 0) ∧ c.shared.seqs ≠ [] ∧ c.shared.counter = t := by
  obtain ⟨c, t₁, pc, hc, ht, hpc, -, -, sh, hmv⟩ := hr.running
  rw [hreq, hres] at hmv
  rw [hreq] at hpc
  rw [hpc] at hmv
  have hread : ∀ q, OpPc.done (.ok (.position t)) = .done (.ok (.position q)) →
      ∃ v i seq, pc = .sequence v i ∧ c.shared.seqs[i]? = some seq ∧ q = seq.tail := by
    apply hmv.lands_op (P := fun _ pc' => ∀ q, pc' = .done (.ok (.position q)) →
      ∃ v i seq, pc = .sequence v i ∧ c.shared.seqs[i]? = some seq ∧ q = seq.tail)
    intro lb _
    exact tailOp_returns pc
  -- one client has one sequencer
  obtain ⟨v, i, seq, rfl, hseq, rfl⟩ := hread t rfl
  obtain rfl := hS.reads c (List.mem_of_getElem? hc) t₁ (List.mem_of_getElem? ht) _ v i hpc
    (Or.inr rfl)
  refine ⟨c, t₁, v, hc, ht, hpc, ?_, ?_⟩
  · intro hnil
    rw [hnil] at hseq
    cases hseq
  · -- the counter has not wrapped, so the tail is the counter
    rw [hr.action] at hok
    rw [hok.tail hc ht hpc hseq]
    unfold Shared.counter
    rw [hseq]

/-- **The tail is up to date**: an append returned before the `CheckTail` was invoked; then the tail
    is beyond its position, when the run stays below the wrap and every `CheckTail` reads a sequencer
    that is not superseded. -/
theorem tail_up_to_date {options : Options} {host : Host}
    (h₀ : World.init name u options host = some w₀)
    (h : Lib.Run World.step (fun w a => FreshRead u w a ∧ Unwrapped u w a) w₀ w)
    (hx : w.Returned x) (hy : w.Returned y) {data : String} {t : Nat}
    (hxr : x.request = .append data) (hxp : x.result = .ok (.position p))
    (hyr : y.request = .checkTail) (hyt : y.result = .ok (.position t))
    (hlt : x.done < y.invoked) : p < t := by
  -- by the run: the read returned before the last step, or by it
  induction h with
  | refl => exact absurd hx (not_returned_init h₀)
  | tail hrun hok hstep ih =>
    have hreach := hrun.mono fun _ _ _ => trivial
    have hG := (Good.init h₀).of_reaches hreach
    have hS := Sequencers.of_reaches h₀ hreach
    have hylt := (hG.step hstep).returned_lt hy
    have hx₀ := hG.returned_earlier hstep hx (by omega) hlt
    rcases hG.return_step hstep hy with hy₀ | hr
    · exact ih hx₀ hy₀
    · -- the append returned before, so its position has been passed
      obtain ⟨c, t₁, v, hc, ht, hpc, hne, rfl⟩ := hr.read hS hok.2 hyr hyt
      have hpassed := passed_of_run h₀ (hrun.mono fun _ _ hok => hok.2) hx₀ hxr hxp
      rcases hpassed.counter hG.toInv hS (.of_reaches h₀ hreach) hc hne with hbeyond | hout
      · exact hbeyond
      · -- otherwise it came from a newer sequencer, and the one read is not superseded
        exact absurd ⟨p, hout, hG.toInv.appended_slot hx₀ hxr hxp⟩
          (hok.1 y.cid y.tid c t₁ v 0 hr.action hc ht hpc)

end

namespace Sample

/-- One sequencer has been elected. -/
def OneSequencer (w : World) (_ : Action) : Prop :=
  (∀ v ∈ viewsOf uuid w.backend, ∀ cfg ∈ v.seqConfig, cfg.epoch = 2) ∧ Low w

instance (w : World) (a : Action) : Decidable (OneSequencer w a) :=
  inferInstanceAs (Decidable ((∀ v ∈ viewsOf uuid w.backend, ∀ cfg ∈ v.seqConfig, cfg.epoch = 2) ∧
    Low w))

theorem OneSequencer.not_superseded {w : World} {a : Action} (h : OneSequencer w a) (sh : Shared) :
    ¬ Superseded uuid w.backend sh := by
  rintro ⟨p, ⟨e, v, cfg, e', v', cfg', hv, hcfg, -, hv', hcfg', hlt, -⟩, -⟩
  have hold := h.1 v hv.mem cfg hcfg
  have hnew := h.1 v' hv'.mem cfg' hcfg'
  omega

/-- The second client appends; the first one then asks for the tail. -/
def staleTail : List Action :=
  openedTwice opened ++ .invoke 1 (.append "a") :: steps 1 4 4 ++ .invoke 0 .checkTail :: steps 0 4 2

/-- The first client has filled position 5 before the second one opens the log, so that the second
    one appends at position 6; the first one still appends at position 0. -/
def staleAppend : List Action :=
  openedTwice (opened ++ .invoke 0 (.fill 5) :: steps 0 4 4 ++ steps 0 1 5 ++ steps 0 4 9) ++
    .invoke 1 (.append "b") :: steps 1 4 5 ++ steps 1 1 5 ++ steps 1 4 7 ++
    .invoke 0 (.append "c") :: steps 0 5 3

/-- Two operations that have returned. -/
def records (w : World) (i j : Nat × Nat) : Option (Thread × Thread) :=
  (w.thread? i.1 i.2).bind fun t => (w.thread? j.1 j.2).map fun t' => (t, t')

end Sample

set_option maxRecDepth 100000 in
/-- In the small log, the tail after the first append is 1. -/
theorem tail_up_to_date_sample :
    ∃ w, Sample.worldIf Sample.OneSequencer
        (Sample.appended ++ .invoke 0 .checkTail :: Sample.steps 0 5 2) = some w ∧
      w.Returned ⟨0, 4, .append "a", .ok (.position 0), 19, 23⟩ ∧
      w.Returned ⟨0, 5, .checkTail, .ok (.position 1), 24, 26⟩ ∧ 0 < 1 := by
  -- both operations and their times are evaluated
  have hrun : (Sample.worldIf Sample.OneSequencer
      (Sample.appended ++ .invoke 0 .checkTail :: Sample.steps 0 5 2)).bind
        (fun w => Sample.records w (0, 4) (0, 5)) =
      some (⟨.op (.append "a") (.done (.ok (.position 0))), 19, some 23,
          [(dataOid Sample.uuid 0 0, 0)]⟩,
        ⟨.op .checkTail (.done (.ok (.position 1))), 24, some 26, []⟩) := by decide +kernel
  obtain ⟨w, hw, hrun⟩ := Option.bind_eq_some_iff.mp hrun
  obtain ⟨t, ht, hrun⟩ := Option.bind_eq_some_iff.mp hrun
  obtain ⟨t', ht', heq⟩ := Option.map_eq_some_iff.mp hrun
  cases heq
  obtain ⟨w₀, h₀, h⟩ := Sample.runs hw
  have hx : w.Returned ⟨0, 4, .append "a", .ok (.position 0), 19, 23⟩ := ⟨_, ht, rfl, rfl, rfl⟩
  have hy : w.Returned ⟨0, 5, .checkTail, .ok (.position 1), 24, 26⟩ := ⟨_, ht', rfl, rfl, rfl⟩
  have hfresh : Lib.Run World.step
      (fun w a => FreshRead Sample.uuid w a ∧ Unwrapped Sample.uuid w a) w₀ w := by
    -- nobody becomes the sequencer after the first client
    refine h.mono fun w a hone => ⟨?_, hone.2.unwrapped a⟩
    intro cid tid c t v i _ _ _ _
    exact hone.not_superseded c.shared
  exact ⟨w, hw, hx, hy, tail_up_to_date h₀ hfresh hx hy rfl rfl rfl rfl (by decide)⟩

set_option maxRecDepth 100000 in
/-- **A stale tail**: the first client still reads its own sequencer, and the tail that it returns
    is the position that the second client has appended to. -/
theorem tail_stale :
    ∃ w₀ w, World.init "log" Sample.uuid Sample.options Sample.host = some w₀ ∧
      Lib.Reaches World.step w₀ w ∧
      w.Returned ⟨1, 4, .append "a", .ok (.position 0), 37, 41⟩ ∧
      w.Returned ⟨0, 4, .checkTail, .ok (.position 0), 42, 44⟩ := by
  have hrun : (Sample.world Sample.staleTail).bind (fun w => Sample.records w (1, 4) (0, 4)) =
      some (⟨.op (.append "a") (.done (.ok (.position 0))), 37, some 41,
          [(dataOid Sample.uuid 0 0, 0)]⟩,
        ⟨.op .checkTail (.done (.ok (.position 0))), 42, some 44, []⟩) := by decide +kernel
  obtain ⟨w, hw, hrun⟩ := Option.bind_eq_some_iff.mp hrun
  obtain ⟨t, ht, hrun⟩ := Option.bind_eq_some_iff.mp hrun
  obtain ⟨t', ht', heq⟩ := Option.map_eq_some_iff.mp hrun
  cases heq
  obtain ⟨w₀, h₀, h⟩ := Sample.reaches hw
  exact ⟨w₀, w, h₀, h, ⟨_, ht, rfl, rfl, rfl⟩, ⟨_, ht', rfl, rfl, rfl⟩⟩

section

variable {u : Uuid} {name : String} {w w₀ : World} {a : Action} {p : Nat} {x y : OpRecord}

/-! ## The order of appends -/

/-- An append in flight is beyond the appends that had returned when it was invoked, unless newer
    sequencers have their positions. -/
def AheadAll (u : Uuid) (w : World) : Prop :=
  ∀ (cid tid : Nat) (c : Client) (t : Thread) data pc q, w.clients[cid]? = some c →
    c.threads[tid]? = some t → t.pc = .op (.append data) pc → pc.position? = some q →
    ∀ x data' p, w.Returned x → x.request = .append data' → x.result = .ok (.position p) →
      x.done < t.invokedAt → p < q ∨ Outrun u w.backend c.shared p

theorem AheadAll.of_run {options : Options} {host : Host}
    (h₀ : World.init name u options host = some w₀)
    (h : Lib.Run World.step (Unwrapped u) w₀ w) : AheadAll u w := by
  induction h with
  | refl =>
    intro cid tid c t data pc q _ _ _ _ x _ _ hx
    exact absurd hx (not_returned_init h₀)
  | @tail v _ _ hrun hok hstep ih =>
    intro cid tid c' t' data opc' q hc' ht' hpc' hq x data' p hx hxr hxp hlt
    have hreach := hrun.mono fun _ _ _ => trivial
    have hG := (Good.init h₀).of_reaches hreach
    have hI := hG.toInv
    have hS := Sequencers.of_reaches h₀ hreach
    have hO := Owners.of_reaches h₀ hreach
    have hgrow := (hI.step hstep).2.grows.views
    have hthread := World.thread?_eq_some.mpr ⟨c', hc', ht'⟩
    have htimed := ((hG.step hstep).timed cid tid t' hthread).invoked
    have hx₀ := hG.returned_earlier hstep hx htimed hlt
    cases hI.thread_step hstep hthread with
    | same hold =>
      obtain ⟨c, hc, ht⟩ := World.thread?_eq_some.mp hold
      have hlater := (hI.client_step hstep hc').later hS hI hO hc
      rcases ih cid tid c t' data opc' q hc ht hpc' hq x data' p hx₀ hxr hxp hlt with hpq | hout
      · exact Or.inl hpq
      · exact Or.inr (hout.mono hgrow hlater.backend)
    | fresh hnone hinv hdone hcreated hb henter =>
      obtain rfl := henter _ _ hpc'
      cases hq
    | closing t hold hopened heq =>
      rw [heq] at hpc'
      cases hpc'
    | ran c t sh pc ha hc ht heq hk hpc hmv =>
      subst ha
      have hlater := (hI.client_step hstep hc').later hS hI hO hc
      have hmem := List.mem_of_getElem? hc
      rw [heq] at hpc' hlt
      have hpc' : pc = .op (.append data) opc' := hpc'
      subst hpc'
      obtain ⟨opc, htpc, -, -⟩ := hpc.op hmv
      have hfirst : ∀ v i, opc = .sequence v i → i = 0 := by
        rintro v i rfl
        exact hS.reads c hmem t (List.mem_of_getElem? ht) _ v i htpc (Or.inl ⟨data, rfl⟩)
      rw [htpc] at hmv
      have hbefore : p < q ∨ Outrun u v.backend c.shared p := by
        rcases hmv.lands_op (P := fun sh' pc' => ∀ p, pc'.position? = some p →
          opc.position? = some p ∨ ∃ seq, DrawsNext c.shared sh' opc seq p)
          (fun lb _ => appendOp_position opc hfirst) q hq with hold | ⟨seq, hdraw⟩
        · exact ih cid tid c t data opc q hc ht htpc hold x data' p hx₀ hxr hxp hlt
        · -- the position is drawn in this step
          rw [hok.drawn hc ht htpc hdraw]
          exact (passed_of_run h₀ hrun hx₀ hxr hxp).counter hI hS hO hc hdraw.ne_nil
      rcases hbefore with hpq | hout
      · exact Or.inl hpq
      · exact Or.inr (hout.mono hgrow hlater.backend)

/-- An append writes to an object that is open for it only while its sequencer is not superseded. -/
def FreshWrite (u : Uuid) (w : World) (a : Action) : Prop :=
  ∀ cid tid c t data v s i q pe o, a = .run cid tid → w.clients[cid]? = some c →
    c.threads[tid]? = some t → t.pc = .op (.append data) (.io v (Stripe.oidAt s i) q pe) →
    objectAt u w.backend s i = some o → o.epoch ≤ v.epoch → ¬ Superseded u w.backend c.shared

/-- **Real-time order**: of two appends of which one returned before the other was invoked, the
    first one has the smaller position, when the run stays below the wrap and no append of a
    superseded sequencer is accepted. -/
theorem appends_in_order {options : Options} {host : Host}
    (h₀ : World.init name u options host = some w₀)
    (h : Lib.Run World.step (fun w a => FreshWrite u w a ∧ Unwrapped u w a) w₀ w)
    (hx : w.Returned x) (hy : w.Returned y) {data data' : String} {q : Nat}
    (hxr : x.request = .append data) (hxp : x.result = .ok (.position p))
    (hyr : y.request = .append data') (hyq : y.result = .ok (.position q))
    (hlt : x.done < y.invoked) : p < q := by
  induction h with
  | refl => exact absurd hx (not_returned_init h₀)
  | tail hrun hok hstep ih =>
    have hreach := hrun.mono fun _ _ _ => trivial
    have hG := (Good.init h₀).of_reaches hreach
    have hylt := (hG.step hstep).returned_lt hy
    have hx₀ := hG.returned_earlier hstep hx (by omega) hlt
    rcases hG.return_step hstep hy with hy₀ | hr
    · exact ih hx₀ hy₀
    · obtain ⟨c, t, v, s, i, pe, hw⟩ := hr.write hG hyr hyq
      rw [← hw.invoked] at hlt
      have hahead := AheadAll.of_run h₀ (hrun.mono fun _ _ hok => hok.2)
      rcases hahead y.cid y.tid c t data' _ q hw.client hw.thread hw.writing
        rfl x data p hx₀ hxr hxp hlt with hpq | hout
      · exact hpq
      · -- the object was open, so the sequencer was not superseded
        have hwrote := hw.wrote
        rcases RAMBackend.write_cases _ (dataOid u s i) data' v.epoch q with ⟨e, -, he⟩ |
          ⟨o, -, -, he⟩ | ⟨o, hio, -, -⟩
        · rw [he] at hwrote
          cases hwrote
        · rw [he] at hwrote
          cases hwrote
        · obtain ⟨-, -, ho, hepoch⟩ := RAMBackend.checkIo_eq_ok.mp hio
          exact absurd ⟨p, hout, hG.toInv.appended_slot hx₀ hxr hxp⟩
            (hok.1 y.cid y.tid c t data' v s i q pe o hr.action hw.client hw.thread hw.writing
              ho hepoch)

end

set_option maxRecDepth 100000 in
/-- In the small log, the second append comes after the first. -/
theorem appends_in_order_sample :
    ∃ w, Sample.worldIf Sample.OneSequencer (Sample.appended ++ .invoke 0 (.append "b") ::
        Sample.steps 0 5 5 ++ Sample.steps 0 1 5 ++ Sample.steps 0 5 7) = some w ∧
      w.Returned ⟨0, 4, .append "a", .ok (.position 0), 19, 23⟩ ∧
      w.Returned ⟨0, 5, .append "b", .ok (.position 1), 24, 41⟩ ∧ 0 < 1 := by
  have hrun : (Sample.worldIf Sample.OneSequencer (Sample.appended ++ .invoke 0 (.append "b") ::
      Sample.steps 0 5 5 ++ Sample.steps 0 1 5 ++ Sample.steps 0 5 7)).bind
        (fun w => Sample.records w (0, 4) (0, 5)) =
      some (⟨.op (.append "a") (.done (.ok (.position 0))), 19, some 23,
          [(dataOid Sample.uuid 0 0, 0)]⟩,
        ⟨.op (.append "b") (.done (.ok (.position 1))), 24, some 41,
          [(dataOid Sample.uuid 1 0, 1)]⟩) := by decide +kernel
  obtain ⟨w, hw, hrun⟩ := Option.bind_eq_some_iff.mp hrun
  obtain ⟨t, ht, hrun⟩ := Option.bind_eq_some_iff.mp hrun
  obtain ⟨t', ht', heq⟩ := Option.map_eq_some_iff.mp hrun
  cases heq
  obtain ⟨w₀, h₀, h⟩ := Sample.runs hw
  have hx : w.Returned ⟨0, 4, .append "a", .ok (.position 0), 19, 23⟩ := ⟨_, ht, rfl, rfl, rfl⟩
  have hy : w.Returned ⟨0, 5, .append "b", .ok (.position 1), 24, 41⟩ := ⟨_, ht', rfl, rfl, rfl⟩
  have hfresh : Lib.Run World.step
      (fun w a => FreshWrite Sample.uuid w a ∧ Unwrapped Sample.uuid w a) w₀ w := by
    refine h.mono fun w a hone => ⟨?_, hone.2.unwrapped a⟩
    intro cid tid c t data v s i q pe o _ _ _ _ _ _
    exact hone.not_superseded c.shared
  exact ⟨w, hw, hx, hy, appends_in_order h₀ hfresh hx hy rfl rfl rfl rfl (by decide)⟩

set_option maxRecDepth 100000 in
/-- **An append of an old sequencer**: the object of position 0 is still open, as the second client
    has sealed no stripe below the one of position 5. -/
theorem append_stale :
    ∃ w₀ w, World.init "log" Sample.uuid Sample.options Sample.host = some w₀ ∧
      Lib.Reaches World.step w₀ w ∧
      w.Returned ⟨1, 4, .append "b", .ok (.position 6), 56, 73⟩ ∧
      w.Returned ⟨0, 5, .append "c", .ok (.position 0), 74, 77⟩ := by
  have hrun : (Sample.world Sample.staleAppend).bind (fun w => Sample.records w (1, 4) (0, 5)) =
      some (⟨.op (.append "b") (.done (.ok (.position 6))), 56, some 73,
          [(dataOid Sample.uuid 6 0, 6)]⟩,
        ⟨.op (.append "c") (.done (.ok (.position 0))), 74, some 77,
          [(dataOid Sample.uuid 0 0, 0)]⟩) := by decide +kernel
  obtain ⟨w, hw, hrun⟩ := Option.bind_eq_some_iff.mp hrun
  obtain ⟨t, ht, hrun⟩ := Option.bind_eq_some_iff.mp hrun
  obtain ⟨t', ht', heq⟩ := Option.map_eq_some_iff.mp hrun
  cases heq
  obtain ⟨w₀, h₀, h⟩ := Sample.reaches hw
  exact ⟨w₀, w, h₀, h, ⟨_, ht, rfl, rfl, rfl⟩, ⟨_, ht', rfl, rfl, rfl⟩⟩

end ZLog
