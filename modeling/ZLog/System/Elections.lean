import ZLog.System.Sequencers

/-!
# Elections

A sequencer proposal that is accepted stores the token of the proposer, cut at the first NUL.  The
proposer finds itself in the stored configuration exactly when nothing was cut, which depends on
the name of the log only.

## Main results

- `Elects.config`: the configuration that an accepted proposal stores.
- `winner_leads`: the winner has a sequencer exactly when the name of the log contains no NUL.
-/

namespace ZLog

/-! ## Tokens -/

theorem Uuid.nulFree_hoid (u : Uuid) : '\x00' ∉ u.hoid.toList := by
  intro h
  rw [Uuid.hoid, String.toList_append, List.mem_append] at h
  rcases h with h | h
  · exact absurd h (by decide)
  · rcases u.chars _ h with hc | hc | hc
    · exact absurd hc (by decide)
    · exact absurd hc (by decide)
    · exact absurd hc.1 (by simp)

/-- Only the name of a log can bring a NUL into a token. -/
theorem nulFree_makeToken_iff (name : String) (u : Uuid) (host : Host) (id : Nat) :
    '\x00' ∉ (makeToken name u.hoid host.text id).toList ↔ '\x00' ∉ name.toList := by
  have hid := nulFree_toString id
  have hhoid := u.nulFree_hoid
  have hhost := host.nulFree
  simp only [makeToken, String.toList_append, List.mem_append, not_or]
  constructor
  · rintro ⟨⟨⟨⟨⟨⟨⟨-, h⟩, -⟩, -⟩, -⟩, -⟩, -⟩, -⟩
    exact h
  · intro h
    exact ⟨⟨⟨⟨⟨⟨⟨by decide, h⟩, by decide⟩, hhoid⟩, by decide⟩, hhost⟩, by decide⟩, hid⟩

/-- A string is read back as it was stored exactly when it contains no NUL. -/
theorem cStr_eq_iff (s : String) : cStr s = s ↔ '\x00' ∉ s.toList :=
  ⟨fun h => h ▸ nulFree_cStr s, cStr_of_nulFree⟩

section

variable {u : Uuid} {name : String} {b b' : Store} {w w' w₀ w₁ w₂ : World} {c : Client} {cid e : Nat}

/-! ## Accepted proposals -/

/-- What a sequencer proposal does, whether it is accepted or comes too late. -/
inductive ProposeStep (u : Uuid) (w w' : World) (cid tid : Nat) (c : Client) (retries : Nat)
    (curr : VersionedView) (seed : Nat) : Prop where
  | accepted (lb : LogBackend) (t : Thread) : c.shared.backend = some lb →
      curr.epoch = latestEpoch u w.backend →
      viewsOf u w'.backend = viewsOf u w.backend ++
        [(curr.view.withSequencerConfig ⟨curr.epoch + 1, lb.token, seed⟩).stored] →
      w'.clients[cid]? = some { c with threads := c.threads.set tid t } →
      t.pc = .opener (.propose (.waitNew (.enter curr.epoch))) →
      ProposeStep u w w' cid tid c retries curr seed
  | late (t : Thread) : curr.epoch < latestEpoch u w.backend → w'.backend = w.backend →
      w'.clients[cid]? = some { c with threads := c.threads.set tid t } →
      t.pc = .opener (.propose (.waitStale retries curr (.enter curr.epoch))) →
      ProposeStep u w w' cid tid c retries curr seed

/-- A proposal is accepted, or it comes too late. -/
theorem Inv.propose_step (hI : Inv u name w) {tid : Nat} (h : w.step (.run cid tid) = some w')
    (hc : w.clients[cid]? = some c) {t : Thread} (ht : c.threads[tid]? = some t) {retries : Nat}
    {curr : VersionedView} {seed : Nat}
    (hpc : t.pc = .opener (.propose (.propose retries curr seed))) :
    ProposeStep u w w' cid tid c retries curr seed := by
  obtain ⟨c', t', m, hc', -, ht', hm, rfl⟩ := World.step_run h
  rw [hc] at hc'
  cases hc'
  rw [ht] at ht'
  cases ht'
  have hcok := hI.clients c (List.mem_of_getElem? hc)
  have hok := hcok.threads t (List.mem_of_getElem? ht)
  rw [hpc] at hok hm
  obtain ⟨hcurr, -⟩ := hok
  -- the thread has a handle, or it could not propose
  cases hlb : c.shared.backend with
  | none =>
    simp only [Pc.move, openEntry, hlb] at hm
    cases hm
  | some lb =>
    obtain ⟨hhoid, -, htok⟩ := hcok.shared.backend lb hlb
    simp only [Pc.move, openEntry, hlb, proposeSequencer, Move.inside, Option.map_some,
      Move.map] at hm
    cases hm
    have hn : NextView curr.epoch curr.view
        (curr.view.withSequencerConfig ⟨curr.epoch + 1, lb.token, seed⟩) :=
      .sequencer lb.token seed htok
    have hself : ∀ d, (w.clients.set cid d)[cid]? = some d := fun d =>
      List.getElem?_set_self (lt_of_getElem?_eq_some hc)
    -- a view has been stored in between, or none has
    rcases hI.log.proposeView hcurr hn with ⟨hlt, hp⟩ | ⟨heq, b', hp, hviews, -⟩
    · have hexec : w.backend.exec (.proposeView lb.hoid (curr.epoch + 1)
          (curr.view.withSequencerConfig ⟨curr.epoch + 1, lb.token, seed⟩).encode) =
          (.error .espipe, w.backend) := by
        rw [hhoid]
        exact hp
      simp only [World.runMove, hexec, World.setClient]
      exact .late _ hlt rfl (hself _) rfl
    · have hexec : w.backend.exec (.proposeView lb.hoid (curr.epoch + 1)
          (curr.view.withSequencerConfig ⟨curr.epoch + 1, lb.token, seed⟩).encode) =
          (.ok (), b') := by
        rw [hhoid]
        exact hp
      simp only [World.runMove, hexec, World.setClient]
      exact .accepted lb _ hlb heq hviews (hself _) rfl

/-- In the step from `w` to `w'`, the sequencer proposal of client `cid` is accepted at epoch
    `e`. -/
structure Elects (u : Uuid) (w w' : World) (cid e : Nat) : Prop where
  step : ∃ tid c t retries curr seed, w.step (.run cid tid) = some w' ∧
    w.clients[cid]? = some c ∧ c.threads[tid]? = some t ∧
    t.pc = .opener (.propose (.propose retries curr seed)) ∧ e = curr.epoch + 1
  accepted : latestEpoch u w'.backend = e ∧ latestEpoch u w.backend < e

/-- The configuration that the proposal stores. -/
theorem Elects.config (hI : Inv u name w) (h : Elects u w w' cid e) :
    ∃ c lb v cfg, w'.clients[cid]? = some c ∧ c.shared.backend = some lb ∧
      ViewAt (viewsOf u w'.backend) e v ∧ v.seqConfig = some cfg ∧ cfg.epoch = e ∧
      cfg.token = cStr lb.token := by
  obtain ⟨tid, c, t, retries, curr, seed, hstep, hc, ht, hpc, rfl⟩ := h.step
  cases hI.propose_step hstep hc ht hpc with
  | accepted lb t hlb heq hviews hc' hpc' =>
    refine ⟨_, lb, (curr.view.withSequencerConfig ⟨curr.epoch + 1, lb.token, seed⟩).stored,
      ⟨curr.epoch + 1, cStr lb.token, seed⟩, hc', hlb, ?_, rfl, rfl, rfl⟩
    rw [hviews, heq]
    exact viewAt_append_last _ _
  | late t hlt hb hc' hpc' =>
    have hlat := h.accepted
    rw [hb] at hlat
    omega

/-- The handle of a client stays. -/
theorem handle_stays {options : Options} {host : Host}
    (h₀ : World.init name u options host = some w₀) (h : Lib.Reaches World.step w₀ w)
    (hc : w.clients[cid]? = some c) {lb : LogBackend} (hlb : c.shared.backend = some lb)
    (hr : Lib.Reaches World.step w w') :
    ∃ c', w'.clients[cid]? = some c' ∧ c'.shared.backend = some lb := by
  refine hr.invariant_reaches (I := fun w' =>
    ∃ c', w'.clients[cid]? = some c' ∧ c'.shared.backend = some lb) ?_ ⟨c, hc, hlb⟩
  rintro t a t' hrt ⟨d, hd, hdlb⟩ - hs
  have ht := h.trans hrt
  obtain ⟨d', hd'⟩ := World.client_persists hs hd
  exact ⟨d', hd', (((Inv.init h₀).of_reaches ht).client_step hs hd').handle_stays
    (Owners.of_reaches h₀ ht) hd hdlb⟩

/-! ## Who returns `-EIO` -/

/-- The current view has no sequencer. -/
def Shared.Headless (sh : Shared) : Prop := ∃ v, sh.view = some v ∧ v.seq = none

/-- An append or a check of the tail returns `-EIO` only for want of a sequencer. -/
def EioOnly (sh : Shared) (_ : Store) (pc : OpPc) : Prop :=
  pc = .done (.error .eio) → sh.Headless

theorem mapPosition_eio {sh sh' : Shared} {v : VersionedView} {p : Nat} {pe : Option Nat}
    (hsh : SharedOk u b sh') : Safe u name b (EioOnly sh) (some (mapPosition sh' v p pe)) := by
  unfold mapPosition
  split
  · trivial
  · exact ⟨hsh, fun h => by cases h⟩
  · exact ⟨hsh, fun h => by cases h⟩
  · exact ⟨hsh, fun h => by cases h⟩

/-- An append answers `-EIO` only for want of a sequencer. -/
theorem appendOp_eio {options : Options} {lb : LogBackend} {data : String} {pc : OpPc} {sh : Shared}
    (h : LogOk u name b) (hsh : SharedOk u b sh) (hlb : HandleOk u lb)
    (hpc : OpOk u b (.append data) pc) :
    Safe u name b (EioOnly sh) (appendOp data options lb sh pc) := by
  cases pc with
  | start p pe =>
    -- the view has no sequencer
    refine Safe.atView fun v hv => ?_
    split
    · next hnone => exact ⟨hsh, fun _ => ⟨v, hv, hnone⟩⟩
    · split
      · trivial
      · split
        · exact mapPosition_eio hsh
        · exact ⟨hsh, fun h => by cases h⟩
  | sequence v i =>
    simp only [appendOp]
    split
    · trivial
    · exact mapPosition_eio (hsh.congr rfl rfl)
  | io v oid p pe =>
    obtain ⟨-, -, hv, s, i, last, rfl, hm⟩ := hpc
    have hcall : CallOk u name b (.write (dataOid u s i) data v.epoch p) := .write data hv hm
    have hexec : b.exec (.write (dataOid u s i) data v.epoch p) =
      b.write (dataOid u s i) data v.epoch p := rfl
    simp only [appendOp, hlb.oid]
    refine ⟨hcall, ?_⟩
    rw [hexec]
    -- none of the answers of `Write` is `-EIO`
    rcases b.write_cases (dataOid u s i) data v.epoch p with ⟨err, hio, hw⟩ | ⟨o, -, -, hw⟩ |
      ⟨o, hio, hu, hw⟩ <;> rw [hw]
    · rcases h.checkIo (s := s) (i := i) hv.1 with ⟨o, hio', -⟩ | ⟨hio', hlt⟩ | ⟨hio', -⟩
      · rw [hio'] at hio
        cases hio
      · rw [hio'] at hio
        cases hio
        exact fun h => by cases h
      · rw [hio'] at hio
        cases hio
        exact fun h => by cases h
    · exact fun h => by cases h
    · exact fun h => by cases h
  | «seal» v oid p pe =>
    obtain ⟨-, hv, ⟨s, i, rfl⟩, -⟩ := hpc
    obtain ⟨r, b', hexec, hr, -⟩ := h.exec_seal (s := s) (i := i) hv.1
    simp only [appendOp, hlb.oid]
    refine ⟨.seal s i hv.1 (Nat.le_succ_of_le hv.epoch_le), ?_⟩
    rw [hexec]
    -- nor are those of `Seal`
    rcases hr with rfl | rfl <;> exact fun h => by cases h
  | expand p pe pc =>
    refine Safe.inside (tryExpandView_safe h hsh hlb hpc.2) ?_ ?_
    · exact fun b' s _ h => by cases h
    · rintro b' r ⟨-, rfl | ⟨rfl, -⟩⟩ <;> exact fun h => by cases h
  | scheduleExpand v oid p pe => exact ⟨asyncExpandView_ok hsh _, fun h => by cases h⟩
  | wait p pe wait =>
    refine Safe.inside (waitForNewerView_safe hsh hpc.2) ?_ ?_
    · exact fun b' s _ h => by cases h
    · exact fun b' r _ h => by cases h
  | _ => trivial

theorem tailOp_eio {pc : OpPc} {sh : Shared} (hsh : SharedOk u b sh) :
    Safe u name b (EioOnly sh) (tailOp sh pc) := by
  cases pc with
  | start p pe =>
    refine Safe.atView fun v hv => ?_
    split
    · next hnone => exact ⟨hsh, fun _ => ⟨v, hv, hnone⟩⟩
    · exact ⟨hsh, fun h => by cases h⟩
  | sequence v i =>
    simp only [tailOp]
    split
    · trivial
    · exact ⟨hsh, fun h => by cases h⟩
  | _ => trivial

/-- The operations that need a sequencer. -/
def Request.Sequenced : Request → Prop
  | .append _ => True
  | .checkTail => True
  | _ => False

/-- A step that ends in a result is one of an operation in flight. -/
theorem Inv.run_done (hI : Inv u name w) {tid : Nat} (h : w.step (.run cid tid) = some w')
    {t' : Thread} {r : Request} {result : Ret Reply} (ht' : w'.thread? cid tid = some t')
    (hpc' : t'.pc = .op r (.done result)) :
    ∃ c t opc sh, w.clients[cid]? = some c ∧ c.threads[tid]? = some t ∧ t.pc = .op r opc ∧
      (∀ result, opc ≠ .done result) ∧
      Moves name c (.op r opc) w.backend sh (.op r (.done result)) w'.backend := by
  obtain ⟨c, t, hc, -, ht, rfl | ⟨sh, pc, hst, -, -, hpc, hmv⟩⟩ := hI.run_cases h
  · -- an operation that has returned does not move
    rw [World.thread?_set_self rfl (lt_of_getElem?_eq_some hc), ht] at ht'
    cases ht'
    obtain ⟨c₁, t₁, m, hc₁, -, ht₁, hm, -⟩ := World.step_run h
    rw [hc] at hc₁
    cases hc₁
    rw [ht] at ht₁
    cases ht₁
    rw [hpc', Pc.move_done] at hm
    cases hm
  · rw [World.thread?_set_self hst.clients (lt_of_getElem?_eq_some hc),
      List.getElem?_set_self (lt_of_getElem?_eq_some ht)] at ht'
    cases ht'
    have hpc' : pc = .op r (.done result) := hpc'
    subst hpc'
    obtain ⟨opc, htpc, hflight, -⟩ := hpc.op hmv
    rw [htpc] at hmv
    exact ⟨c, t, opc, sh, hc, ht, htpc, hflight, hmv⟩

/-- A step that ends an append or a check of the tail with `-EIO` found no sequencer. -/
theorem Inv.headless_of_eio (hI : Inv u name w) {tid : Nat} (h : w.step (.run cid tid) = some w')
    {t' : Thread} {r : Request} (hr : r.Sequenced) (ht' : w'.thread? cid tid = some t')
    (hpc' : t'.pc = .op r (.done (.error .eio))) :
    ∃ c, w.clients[cid]? = some c ∧ c.shared.Headless := by
  obtain ⟨c, t, opc, sh, hc, ht, htpc, -, hmv⟩ := hI.run_done h ht' hpc'
  refine ⟨c, hc, ?_⟩
  have hcok := hI.clients c (List.mem_of_getElem? hc)
  have hok := hcok.threads t (List.mem_of_getElem? ht)
  rw [htpc] at hok
  have hsafe : ∀ lb, c.shared.backend = some lb →
      Safe u name w.backend (EioOnly c.shared) (r.run c.options lb c.shared opc) := by
    intro lb hlb
    -- of the operations only two need the sequencer
    cases r with
    | append data => exact appendOp_eio hI.log hcok.shared (hcok.shared.backend lb hlb) hok
    | checkTail => exact tailOp_eio hcok.shared
    | _ => exact hr.elim
  have hmove : Safe u name w.backend
      (fun _ pc' => pc' = .op r (.done (.error .eio)) → c.shared.Headless)
      ((Pc.op r opc).move name c) := by
    simp only [Pc.move]
    split
    · trivial
    · next lb hlb =>
      refine Safe.map ((hsafe lb hlb).imp fun _ pc' hpc' heq => hpc' ?_)
      cases heq
      rfl
  exact hmv.safe hmove rfl

/-! ## The winner -/

/-- While nobody else has become the sequencer, all views from the winner's on have its
    configuration. -/
theorem HistoryOk.last_config {vs : List View} (h : HistoryOk vs) {e e' : Nat} {v v' : View}
    {cfg : SequencerConfig} (hv : ViewAt vs e v) (hcfg : v.seqConfig = some cfg)
    (hlast : ∀ e' v' cfg', ViewAt vs e' v' → v'.seqConfig = some cfg' → cfg'.epoch ≤ e)
    (hv' : ViewAt vs e' v') (hle : e ≤ e') : v'.seqConfig = some cfg := by
  obtain ⟨cfg', hcfg', -, hsame⟩ := h.config_mono hv hv' hle hcfg
  rw [hcfg', hsame (hlast e' v' cfg' hv' hcfg')]

/-- **The winner becomes the sequencer**: let the proposal of a client be accepted at epoch `e`, and
    let no stored configuration be newer.  Once the client has installed a view from `e` on, the
    view has a sequencer, and no append and no check of the tail returns `-EIO`, exactly when the
    name of the log contains no NUL. -/
theorem winner_leads {options : Options} {host : Host}
    (h₀ : World.init name u options host = some w₀) (h₁ : Lib.Reaches World.step w₀ w₁)
    (hel : Elects u w₁ w₂ cid e) (h₂ : Lib.Reaches World.step w₂ w)
    (hlast : ∀ e' v cfg, ViewAt (viewsOf u w.backend) e' v → v.seqConfig = some cfg →
      cfg.epoch ≤ e)
    (hc : w.clients[cid]? = some c) {v : VersionedView} (hv : c.shared.view = some v)
    (hle : e ≤ v.epoch) :
    (v.seq ≠ none ∧ ∀ tid w' t r, r.Sequenced → w.step (.run cid tid) = some w' →
      w'.thread? cid tid = some t → t.pc ≠ .op r (.done (.error .eio))) ↔
    '\x00' ∉ name.toList := by
  obtain ⟨tid, -, -, -, -, -, hstep, -⟩ := hel.step
  have h₁' := h₁.trans (Lib.Run.single trivial hstep)
  have h := h₁'.trans h₂
  have hI := (Inv.init h₀).of_reaches h
  have hmem := List.mem_of_getElem? hc
  have hseq := (Sequencers.of_reaches h₀ h).seqs c hmem
  -- the configuration of the current view is the one that the client proposed
  obtain ⟨c₂, lb, v₂, cfg, hc₂, hlb₂, hv₂, hcfg, -, htok⟩ :=
    hel.config ((Inv.init h₀).of_reaches h₁)
  obtain ⟨c', hc', hlb⟩ := handle_stays h₀ h₁' hc₂ hlb₂ h₂
  rw [hc] at hc'
  cases hc'
  have hgrow := (((Inv.init h₀).of_reaches h₁').kept h₂).grows.views
  have hcur : v.seqConfig = some cfg :=
    hI.log.history.last_config (hv₂.mono hgrow) hcfg hlast
      ((hI.clients c hmem).shared.view v hv) hle
  obtain ⟨id, hid⟩ := (Owners.of_reaches h₀ h).handle c hmem lb hlb
  have hleads : c.shared.Leads v ↔ '\x00' ∉ name.toList := by
    rw [← nulFree_makeToken_iff name u c.host id, ← hid, ← cStr_eq_iff, ← htok]
    constructor
    · rintro ⟨cfg', hcfg', lb', hlb', htok'⟩
      rw [hcur] at hcfg'
      cases hcfg'
      rw [hlb] at hlb'
      cases hlb'
      exact htok'
    · intro heq
      exact ⟨cfg, hcur, lb, hlb, heq⟩
  rw [← hleads]
  constructor
  · rintro ⟨hne, -⟩
    obtain ⟨i, hi⟩ := Option.ne_none_iff_exists'.mp hne
    exact (hseq.attached v i hv hi).2.1
  · intro hl
    have hsome := hseq.own v hv hl
    refine ⟨by simp [hsome], fun tid w' t r hr hs ht heio => ?_⟩
    obtain ⟨d, hd, x, hx, hnone⟩ := hI.headless_of_eio hs hr ht heio
    rw [hc] at hd
    cases hd
    rw [hv] at hx
    cases hx
    rw [hsome] at hnone
    cases hnone

end

namespace Sample

/-- The first client proposes itself, is accepted, builds its handle and invokes a check of the
    tail. -/
def election (name : String) : Option (World × World × World) :=
  (World.init name uuid options host).bind fun w₀ =>
    (Lib.exec World.step w₀ (steps 0 0 8)).bind fun w₁ =>
      (w₁.step (.run 0 0)).bind fun w₂ =>
        (Lib.exec World.step w₂
          (steps 0 0 1 ++ steps 0 1 5 ++ steps 0 0 3 ++ [.invoke 0 .checkTail])).map fun w =>
            (w₁, w₂, w)

/-- The epoch for which a thread is about to propose its client. -/
def proposed? (t : Thread) : Option Nat :=
  match t.pc with
  | .opener (.propose (.propose _ curr _)) => some (curr.epoch + 1)
  | _ => none

/-- What an election shows: the epoch of the proposal, the last epochs before and after it and at
    the end, and the view that the client has at the end, with its sequencer. -/
def outcome (ws : World × World × World) : Option (Nat × Nat × Nat × Nat × Nat × Bool) :=
  (ws.1.clients[0]?.bind fun c => c.threads[0]?.bind proposed?).bind fun e =>
    (ws.2.2.clients[0]?.bind fun c => c.shared.view).map fun v =>
      (e, latestEpoch uuid ws.1.backend, latestEpoch uuid ws.2.1.backend,
        latestEpoch uuid ws.2.2.backend, v.epoch, v.seq.isSome)

theorem election_cases {name : String} {w₁ w₂ w : World} {led : Bool}
    (h : election name = some (w₁, w₂, w)) (ho : outcome (w₁, w₂, w) = some (2, 1, 2, 2, 2, led)) :
    ∃ w₀ c v, World.init name uuid options host = some w₀ ∧ Lib.Reaches World.step w₀ w₁ ∧
      Elects uuid w₁ w₂ 0 2 ∧ Lib.Reaches World.step w₂ w ∧
      (∀ e v cfg, ViewAt (viewsOf uuid w.backend) e v → v.seqConfig = some cfg → cfg.epoch ≤ 2) ∧
      w.clients[0]? = some c ∧ c.shared.view = some v ∧ v.epoch = 2 ∧ v.seq.isSome = led := by
  obtain ⟨w₀, h₀, h⟩ := Option.bind_eq_some_iff.mp h
  obtain ⟨x₁, h₁, h⟩ := Option.bind_eq_some_iff.mp h
  obtain ⟨x₂, h₂, h⟩ := Option.bind_eq_some_iff.mp h
  obtain ⟨x, h₃, h⟩ := Option.map_eq_some_iff.mp h
  cases h
  have hr₁ := Lib.run_of_exec _ h₁
  have hr₃ := Lib.run_of_exec _ h₃
  obtain ⟨e, he, ho⟩ := Option.bind_eq_some_iff.mp ho
  obtain ⟨v, hv, ho⟩ := Option.map_eq_some_iff.mp ho
  obtain ⟨c, hc, hv⟩ := Option.bind_eq_some_iff.mp hv
  obtain ⟨c₁, hc₁, he⟩ := Option.bind_eq_some_iff.mp he
  obtain ⟨t₁, ht₁, he⟩ := Option.bind_eq_some_iff.mp he
  simp only [Prod.mk.injEq] at ho
  obtain ⟨rfl, hl₁, hl₂, hl, hepoch, hseq⟩ := ho
  -- the step in the middle is the accepted proposal
  have hel : Elects uuid w₁ w₂ 0 2 := by
    refine ⟨?_, hl₂, by omega⟩
    unfold proposed? at he
    split at he
    · next retries curr seed hpc =>
      exact ⟨0, c₁, t₁, retries, curr, seed, h₂, hc₁, ht₁, hpc, (Option.some.inj he).symm⟩
    · cases he
  have hI := (Inv.init h₀).of_reaches ((hr₁.trans (Lib.Run.single trivial h₂)).trans hr₃)
  -- no later configuration fits into the log
  refine ⟨w₀, c, v, h₀, hr₁, hel, hr₃, fun e v cfg hv hcfg => ?_, hc, hv, hepoch, hseq⟩
  have hle := (hI.log.history.config e v cfg hv hcfg).2
  have hlen : e ≤ latestEpoch uuid w.backend := hv.le_length
  have hl : latestEpoch uuid w.backend = 2 := hl
  omega

end Sample

set_option maxRecDepth 100000 in
/-- In the small log, the first client wins its own election. -/
theorem winner_leads_sample :
    ∃ w₁ w₂ w c v, Elects Sample.uuid w₁ w₂ 0 2 ∧ Lib.Reaches World.step w₂ w ∧
      w.clients[0]? = some c ∧ c.shared.view = some v ∧ v.epoch = 2 ∧ v.seq ≠ none := by
  have hrun : (Sample.election "log").bind Sample.outcome = some (2, 1, 2, 2, 2, true) := by
    decide +kernel
  obtain ⟨⟨w₁, w₂, w⟩, h, ho⟩ := Option.bind_eq_some_iff.mp hrun
  obtain ⟨w₀, c, v, h₀, h₁, hel, h₂, hlast, hc, hv, hepoch, -⟩ := Sample.election_cases h ho
  have hleads := (winner_leads h₀ h₁ hel h₂ hlast hc hv (le_of_eq hepoch.symm)).mpr (by decide)
  exact ⟨w₁, w₂, w, c, v, hel, h₂, hc, hv, hepoch, hleads.1⟩

set_option maxRecDepth 100000 in
/-- **A winner without a sequencer**: in a log whose name contains a NUL, the client that has
    become the sequencer does not find itself in its view, and its check of the tail returns
    `-EIO`. -/
theorem winner_without_sequencer :
    ∃ w₀ w₁ w₂ w w' c v t, World.init "a\x00b" Sample.uuid Sample.options Sample.host = some w₀ ∧
      Lib.Reaches World.step w₀ w₁ ∧ Elects Sample.uuid w₁ w₂ 0 2 ∧
      Lib.Reaches World.step w₂ w ∧
      (∀ e v cfg, ViewAt (viewsOf Sample.uuid w.backend) e v → v.seqConfig = some cfg →
        cfg.epoch ≤ 2) ∧
      w.clients[0]? = some c ∧ c.shared.view = some v ∧ v.epoch = 2 ∧ v.seq = none ∧
      w.step (.run 0 4) = some w' ∧ w'.thread? 0 4 = some t ∧
      t.pc = .op .checkTail (.done (.error .eio)) := by
  -- both facts are evaluated: who won, and the answer of the next call
  have hrun : (Sample.election "a\x00b").bind Sample.outcome = some (2, 1, 2, 2, 2, false) := by
    decide +kernel
  have heio : ((Sample.election "a\x00b").bind fun ws => (ws.2.2.step (.run 0 4)).bind fun w' =>
      (w'.thread? 0 4).map Thread.pc) = some (.op .checkTail (.done (.error .eio))) := by
    decide +kernel
  obtain ⟨⟨w₁, w₂, w⟩, h, ho⟩ := Option.bind_eq_some_iff.mp hrun
  obtain ⟨w₀, c, v, h₀, h₁, hel, h₂, hlast, hc, hv, hepoch, hseq⟩ := Sample.election_cases h ho
  rw [h, Option.bind_some] at heio
  obtain ⟨w', hw', heio⟩ := Option.bind_eq_some_iff.mp heio
  obtain ⟨t, ht, heio⟩ := Option.map_eq_some_iff.mp heio
  exact ⟨w₀, w₁, w₂, w, w', c, v, t, h₀, h₁, hel, h₂, hlast, hc, hv, hepoch,
    Option.isSome_eq_false_iff.mp hseq |> Option.isNone_iff_eq_none.mp, hw', ht, heio⟩

end ZLog
