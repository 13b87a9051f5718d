import ZLog.System.Owners

/-!
# Sequencers

A client has at most one sequencer: it is created with the seed of the client's configuration
when the first view with that configuration is installed, and belongs to all later views with
it.  An append holds a position below the counter and writes with a view of the client's own
configuration, so once the configuration is replaced its positions are below every newer seed.

## Main results

- `Sequencers.of_reaches`: sequencers and the positions drawn from them.
- `Sequencers.appended`: what an append that returned says about the configurations.
-/

namespace ZLog

/-- The configuration names this client. -/
def Shared.Owns (sh : Shared) (cfg : SequencerConfig) : Prop :=
  ∃ lb, sh.backend = some lb ∧ cfg.token = lb.token

/-- The view makes this client the sequencer. -/
def Shared.Leads (sh : Shared) (v : VersionedView) : Prop :=
  ∃ cfg, v.seqConfig = some cfg ∧ sh.Owns cfg

/-- The sequencer of a client. -/
structure SeqOk (vs : List View) (sh : Shared) : Prop where
  one : sh.seqs.length ≤ 1
  blank : sh.backend = none → sh.view = none ∧ sh.seqs = []
  attached : ∀ v i, sh.view = some v → v.seq = some i → i = 0 ∧ sh.Leads v ∧ sh.seqs ≠ []
  own : ∀ v, sh.view = some v → sh.Leads v → v.seq = some 0
  made : sh.seqs ≠ [] → ∃ cur e v cfg, sh.view = some cur ∧ e ≤ cur.epoch ∧ ViewAt vs e v ∧
    v.seqConfig = some cfg ∧ sh.Owns cfg ∧ cfg.position ≤ sh.counter

/-- An append of the client. -/
structure AppendOk (sh : Shared) (pc : OpPc) : Prop where
  drawn : ∀ p, pc.position? = some p → p < sh.counter
  leads : ∀ v, pc.view? = some v → sh.Leads v

section

variable {u : Uuid} {name : String} {b b' : Store} {vs vs' : List View} {sh sh' : Shared}
  {w w' : World} {a : Action} {c c' : Client} {cid : Nat}

/-- A client owns a configuration as long as its token does not change. -/
theorem Shared.Owns.mono {cfg : SequencerConfig} (h : sh.Owns cfg)
    (hb : ∀ lb, sh.backend = some lb → sh'.backend = some lb) : sh'.Owns cfg := by
  obtain ⟨lb, hlb, ht⟩ := h
  exact ⟨lb, hb lb hlb, ht⟩

/-- And leads by it. -/
theorem Shared.Leads.mono {v : VersionedView} (h : sh.Leads v)
    (hb : ∀ lb, sh.backend = some lb → sh'.backend = some lb) : sh'.Leads v := by
  obtain ⟨cfg, hcfg, ho⟩ := h
  exact ⟨cfg, hcfg, ho.mono hb⟩

/-- The counter has only moved on. -/
theorem AppendOk.mono {pc : OpPc} (h : AppendOk sh pc) (hk : sh.counter ≤ sh'.counter)
    (hb : ∀ lb, sh.backend = some lb → sh'.backend = some lb) : AppendOk sh' pc :=
  ⟨fun p hp => lt_of_lt_of_le (h.drawn p hp) hk, fun v hv => (h.leads v hv).mono hb⟩

/-- The views have only become more. -/
theorem SeqOk.mono (h : SeqOk vs sh) (hp : vs <+: vs') : SeqOk vs' sh := by
  refine ⟨h.one, h.blank, h.attached, h.own, fun hne => ?_⟩
  obtain ⟨cur, e, v, cfg, hcur, hle, hv, hrest⟩ := h.made hne
  exact ⟨cur, e, v, cfg, hcur, hle, hv.mono hp, hrest⟩

/-- The rest of the memory does not matter. -/
theorem SeqOk.congr (h : SeqOk vs sh) (hb : sh'.backend = sh.backend) (hv : sh'.view = sh.view)
    (hs : sh'.seqs = sh.seqs) : SeqOk vs sh' := by
  have hmono : ∀ lb, sh.backend = some lb → sh'.backend = some lb := fun lb hlb => hb.trans hlb
  have hmono' : ∀ lb, sh'.backend = some lb → sh.backend = some lb := fun lb hlb => hb ▸ hlb
  have hcounter : sh'.counter = sh.counter := by
    unfold Shared.counter
    rw [hs]
  refine ⟨by rw [hs]; exact h.one, ?_, ?_, ?_, ?_⟩
  · rw [hb, hv, hs]
    exact h.blank
  · -- the view is the same, and so are the sequencers it points into
    intro v i hview hseq
    rw [hv] at hview
    obtain ⟨hi, hl, hne⟩ := h.attached v i hview hseq
    exact ⟨hi, hl.mono hmono, by rw [hs]; exact hne⟩
  · intro v hview hl
    rw [hv] at hview
    exact h.own v hview (hl.mono hmono')
  · intro hne
    rw [hs] at hne
    obtain ⟨cur, e, v, cfg, hcur, hle, hva, hcfg, ho, hpos⟩ := h.made hne
    exact ⟨cur, e, v, cfg, hv.trans hcur, hle, hva, hcfg, ho.mono hmono, by omega⟩

/-- Drawing a position. -/
theorem SeqOk.draws {seq : Sequencer} (h : SeqOk vs sh) (hd : Draws sh sh' 0 seq) :
    SeqOk vs sh' ∧ sh.counter < sh'.counter := by
  have hlt : 0 < sh.seqs.length := (List.getElem?_eq_some_iff.mp hd.found).1
  have hne : sh.seqs ≠ [] := List.ne_nil_of_length_pos hlt
  -- the draw is the only change: the counter goes up by one
  have hcounter : sh'.counter = sh.counter + 1 := by
    rw [hd.shared]
    simp [Shared.counter, Sequencer.draw, hd.found, List.getElem?_set_self hlt]
  refine ⟨?_, by omega⟩
  obtain ⟨cur, e, v, cfg, hcur, hle, hva, hcfg, ho, hpos⟩ := h.made hne
  have hmade : sh'.seqs ≠ [] → ∃ cur e v cfg, sh'.view = some cur ∧ e ≤ cur.epoch ∧ ViewAt vs e v ∧
      v.seqConfig = some cfg ∧ sh'.Owns cfg ∧ cfg.position ≤ sh'.counter := by
    intro _
    refine ⟨cur, e, v, cfg, ?_, hle, hva, hcfg, ?_, by omega⟩
    · rw [hd.shared]
      exact hcur
    · rw [hd.shared]
      exact ho
  have hseqs : sh'.seqs ≠ [] := by
    rw [hd.shared]
    simpa using hne
  refine ⟨?_, ?_, ?_, ?_, hmade⟩
  · rw [hd.shared]
    simpa using h.one
  · -- there is a sequencer, so this is not a blank client
    intro hb
    rw [hd.shared] at hb
    exact absurd (h.blank hb).2 hne
  · intro v i hview hseq
    rw [hd.shared] at hview
    obtain ⟨hi, hl, -⟩ := h.attached v i hview hseq
    refine ⟨hi, ?_, hseqs⟩
    rw [hd.shared]
    exact hl
  · intro v hview hl
    rw [hd.shared] at hview hl
    exact h.own v hview hl

/-- Installing a view.  A new sequencer is created only when there was none: the client owns one
    configuration, and while the current view has it the sequencer is kept. -/
theorem SeqOk.installs {lb : LogBackend} {epoch : Nat} {blob : Fbs.View} (h : SeqOk vs sh)
    (hvs : HistoryOk vs) (hlb : sh.backend = some lb) (hi : Installs lb sh sh' epoch blob)
    (hblob : ∀ view, View.decode blob = .ok view → ViewAt vs epoch view)
    (hcur : ∀ cur, sh.view = some cur → ViewAt vs cur.epoch cur.view)
    (huniq : ∀ e e' v v' cfg cfg', ViewAt vs e v → ViewAt vs e' v' → v.seqConfig = some cfg →
      v'.seqConfig = some cfg' → cfg.token = lb.token → cfg'.token = lb.token → cfg = cfg') :
    SeqOk vs sh' ∧ sh.counter ≤ sh'.counter := by
  obtain ⟨view, seqs, seq, hd, hat, rfl⟩ := hi.view
  have hview := hblob view hd
  -- a sequencer that exists stays made
  have hmade : sh.seqs ≠ [] → ∃ cur e v cfg, some (⟨epoch, view, seq⟩ : VersionedView) = some cur ∧
      e ≤ cur.epoch ∧ ViewAt vs e v ∧ v.seqConfig = some cfg ∧ sh.Owns cfg ∧
      cfg.position ≤ sh.counter := by
    intro hne
    obtain ⟨cur, e, v, cfg, hc, hle, hrest⟩ := h.made hne
    exact ⟨_, e, v, cfg, rfl, le_of_lt (lt_of_le_of_lt hle (hi.newer cur hc)), hrest⟩
  have hblank : sh.backend = none → ∀ {q : Prop}, q := fun hb => by
    rw [hlb] at hb
    cases hb
  rcases attachSequencer_cases hat with ⟨rfl, rfl, hno⟩ |
    ⟨cfg, cur, cfg', i, hcfg, htok, hc, hcfg', htok', hseq, rfl, rfl⟩ |
    ⟨cfg, hcfg, htok, rfl, rfl, hdiff⟩
  · refine ⟨⟨h.one, fun hb => hblank hb, ?_, ?_, hmade⟩, le_refl _⟩
    · intro v i hv hs
      cases hv
      cases hs
    · rintro v hv ⟨cfg, hcfg, lb', hlb', htok⟩
      cases hv
      obtain rfl := Option.some.inj (hlb.symm.trans hlb')
      exact absurd htok (hno cfg hcfg)
  · obtain ⟨rfl, -, hne⟩ := h.attached cur i hc hseq
    refine ⟨⟨h.one, fun hb => hblank hb, ?_, ?_, hmade⟩, le_refl _⟩
    · intro v i hv hs
      cases hv
      cases hs
      exact ⟨rfl, ⟨cfg, hcfg, lb, hlb, htok⟩, hne⟩
    · intro v hv _
      cases hv
      rfl
  · have hempty : sh.seqs = [] := by
      by_contra hne
      obtain ⟨cur, e, v, cfg₀, hc, hle, hv, hcfg₀, ⟨lb', hlb', htok₀⟩, -⟩ := h.made hne
      obtain rfl := Option.some.inj (hlb.symm.trans hlb')
      obtain rfl := huniq _ _ _ _ _ _ hv hview hcfg₀ hcfg htok₀ htok
      exact hvs.config_replaced hv (hcur cur hc) hview hle (le_of_lt (hi.newer cur hc)) hcfg₀
        (hdiff cur hc) hcfg
    have hcounter : Shared.counter { sh with
        seqs := sh.seqs ++ [⟨epoch, cfg.position⟩], view := some ⟨epoch, view, some sh.seqs.length⟩ } =
        cfg.position := by
      simp [Shared.counter, hempty]
    refine ⟨⟨by simp [hempty], fun hb => hblank hb, ?_, ?_, ?_⟩, ?_⟩
    · intro v i hv hs
      cases hv
      cases hs
      exact ⟨by simp [hempty], ⟨cfg, hcfg, lb, hlb, htok⟩, by simp⟩
    · intro v hv _
      cases hv
      simp [hempty]
    · intro _
      exact ⟨_, epoch, view, cfg, rfl, le_refl _, hview, hcfg, ⟨lb, hlb, htok⟩,
        le_of_eq hcounter.symm⟩
    · rw [hcounter]
      simp [Shared.counter, hempty]

/-! ## All clients -/

/-- The sequencers of all clients, and the operations that read them. -/
structure Sequencers (u : Uuid) (w : World) : Prop where
  seqs : ∀ c ∈ w.clients, SeqOk (viewsOf u w.backend) c.shared
  appends : ∀ c ∈ w.clients, ∀ t ∈ c.threads, ∀ data pc, t.pc = .op (.append data) pc →
    AppendOk c.shared pc
  reads : ∀ c ∈ w.clients, ∀ t ∈ c.threads, ∀ r v i, t.pc = .op r (.sequence v i) →
    (∃ data, r = .append data) ∨ r = .checkTail → i = 0

/-- A quiet step leaves the counter. -/
theorem Quiet.counter (h : Quiet sh sh') : sh'.counter = sh.counter := by
  unfold Shared.counter
  rw [h.seqs]

/-- The memory of a client after a step of one of its threads. -/
theorem Sequencers.memory {tid : Nat} {t : Thread} {pc : Pc} (hS : Sequencers u w)
    (hI : Inv u name w) (hO : Owners u name w) (hc : w.clients[cid]? = some c)
    (ht : c.threads[tid]? = some t) (hmv : Moves name c t.pc w.backend sh pc w'.backend) :
    SeqOk (viewsOf u w.backend) sh ∧ c.shared.counter ≤ sh.counter ∧
      ∀ lb, c.shared.backend = some lb → sh.backend = some lb := by
  have hmem := List.mem_of_getElem? hc
  have htmem := List.mem_of_getElem? ht
  have hseq := hS.seqs c hmem
  have hcok := hI.clients c hmem
  rcases hmv.memory with hq | ⟨lb, e, blob, hlb, hi, hpc⟩ | ⟨data, v, i, seq, hpc, hd⟩ |
    ⟨hoid, pfx, id, hpc, hsh⟩ | ⟨-, hsh⟩
  · exact ⟨hseq.congr hq.backend hq.view hq.seqs, le_of_eq hq.counter.symm,
      fun lb hlb => hq.backend.trans hlb⟩
  · have hblob : BlobAt u w.backend e blob := by
      have hok := hcok.threads t htmem
      rcases hpc with hpc | hpc <;> rw [hpc] at hok <;> exact hok
    obtain ⟨view, hdec, hview⟩ := hblob
    obtain ⟨hok, hle⟩ := hseq.installs hI.log.history hlb hi
      (fun view' hdec' => by
        rw [hdec] at hdec'
        cases hdec'
        exact hview)
      (fun cur hcur => hcok.shared.view cur hcur)
      (fun _ _ _ _ _ _ => hO.own_unique hmem hlb)
    refine ⟨hok, hle, fun lb' hlb' => ?_⟩
    obtain ⟨_, _, _, -, -, rfl⟩ := hi.view
    exact hlb'
  · obtain rfl := hS.reads c hmem t htmem _ v i hpc (Or.inl ⟨data, rfl⟩)
    obtain ⟨hok, hlt⟩ := hseq.draws hd
    refine ⟨hok, le_of_lt hlt, fun lb hlb => ?_⟩
    rw [hd.shared]
    exact hlb
  · -- the handle is built: nothing was installed before
    have hnone := hO.unnamed c hmem t htmem _ hpc trivial
    obtain ⟨hv, hs⟩ := hseq.blank hnone
    subst hsh
    refine ⟨⟨by simp [hs], fun hb => absurd hb (by simp), ?_, ?_, fun hne => absurd hs hne⟩,
      le_refl _, ?_⟩
    · intro v i hview
      rw [show c.shared.view = some v from hview] at hv
      cases hv
    · intro v hview
      rw [show c.shared.view = some v from hview] at hv
      cases hv
    · intro lb hlb
      rw [hnone] at hlb
      cases hlb
  · subst hsh
    exact ⟨hseq.congr rfl rfl rfl, le_refl _, fun lb hlb => hlb⟩

/-- What the memory of a client keeps in a step. -/
structure Later (c c' : Client) : Prop where
  counter : c.shared.counter ≤ c'.shared.counter
  backend : ∀ lb, c.shared.backend = some lb → c'.shared.backend = some lb

/-- From one state of a client to the next, the counter does not fall. -/
theorem ClientStep.later (hS : Sequencers u w) (hI : Inv u name w) (hO : Owners u name w)
    (hs : ClientStep u name w w' a cid c') (hc : w.clients[cid]? = some c) : Later c c' := by
  -- only a step of a thread can change the counter
  have hself : ∀ {d : Client}, d.shared.seqs = c.shared.seqs →
      d.shared.backend = c.shared.backend → Later c d := by
    intro d hseqs hb
    refine ⟨le_of_eq ?_, fun lb hlb => hb.trans hlb⟩
    unfold Shared.counter
    rw [hseqs]
  cases hs with
  | same hc' =>
    rw [hc] at hc'
    cases hc'
    exact hself rfl rfl
  | fresh options host hn =>
    rw [hc] at hn
    cases hn
  | invoked c₁ r hc' ha hopen heq hb =>
    rw [hc] at hc'
    cases hc'
    subst heq
    exact hself rfl rfl
  | closing c₁ hc' heq hb =>
    rw [hc] at hc'
    cases hc'
    subst heq
    exact hself rfl rfl
  | died c₁ hc' heq hb =>
    rw [hc] at hc'
    cases hc'
    subst heq
    exact hself rfl rfl
  | ran c₁ tid t sh pc hc' ht ha heq hk hpc hmv =>
    rw [hc] at hc'
    cases hc'
    subst heq
    obtain ⟨-, hle, hb⟩ := hS.memory hI hO hc ht hmv
    exact ⟨hle, hb⟩

/-- What the control state of an operation may become. -/
theorem Moves.lands_op {P : Shared → OpPc → Prop} {r : Request} {opc opc' : OpPc}
    (h : Moves name c (.op r opc) b sh (.op r opc') b')
    (hl : ∀ lb, c.shared.backend = some lb →
      Lands c.shared P (r.run c.options lb c.shared opc)) : P sh opc' := by
  refine h.lands (P := fun sh pc => ∀ s, pc = .op r s → P sh s) ?_ opc' rfl
  simp only [Pc.move]
  split
  · trivial
  · next lb hlb =>
    refine Lands.map ((hl lb hlb).imp fun sh s hs s' heq => ?_)
    cases heq
    exact hs

/-- A step of an append keeps what appends know. -/
theorem AppendOk.step {data : String} {opc opc' : OpPc} (hseq : SeqOk vs c.shared)
    (hap : AppendOk c.shared opc) (hfirst : ∀ v i, opc = .sequence v i → i = 0)
    (hk : c.shared.counter ≤ sh.counter)
    (hb : ∀ lb, c.shared.backend = some lb → sh.backend = some lb)
    (h : Moves name c (.op (.append data) opc) b sh (.op (.append data) opc') b') :
    AppendOk sh opc' := by
  refine ⟨fun p hp => ?_, fun v hv => ?_⟩
  · -- a position drawn before, or by this step
    rcases h.lands_op (P := fun sh' pc' => ∀ p, pc'.position? = some p → opc.position? = some p ∨
      ∃ seq, DrawsNext c.shared sh' opc seq p) (fun lb _ => appendOp_position opc hfirst) p hp
      with hold | ⟨seq, hdraw⟩
    · exact lt_of_lt_of_le (hap.drawn p hold) hk
    · rw [hdraw.position, hdraw.counter_next]
      exact Nat.lt_succ_of_le (Nat.mod_le _ _)
  · -- the view it was drawn for, or the one read by this step
    rcases h.lands_op (P := fun _ pc' => ∀ v, pc'.view? = some v → opc.view? = some v ∨
      (c.shared.view = some v ∧ ∃ i, v.seq = some i)) (fun lb _ => appendOp_view opc) v hv
      with hold | ⟨hview, i, hi⟩
    · exact (hap.leads v hold).mono hb
    · exact (hseq.attached v i hview hi).2.1.mono hb

/-- A step keeps what is known of the sequencers, the appends and the reads of the counter. -/
theorem Sequencers.step (hS : Sequencers u w) (hG : Good u name w) (hO : Owners u name w)
    (h : w.step a = some w') : Sequencers u w' := by
  have hI := hG.toInv
  have hgrow := (hI.step h).2.grows.views
  have hclient : ∀ c' ∈ w'.clients, ∃ cid, ClientStep u name w w' a cid c' := by
    intro c' hc'
    obtain ⟨cid, hcid⟩ := List.mem_iff_getElem?.mp hc'
    exact ⟨cid, hI.client_step h hcid⟩
  refine ⟨?_, ?_, ?_⟩
  · -- the sequencers of each client
    intro c' hc'
    obtain ⟨cid, hs⟩ := hclient c' hc'
    refine SeqOk.mono ?_ hgrow
    cases hs with
    | same hc => exact hS.seqs c' (List.mem_of_getElem? hc)
    | fresh options host hn heq hb =>
      subst heq
      exact ⟨Nat.zero_le _, fun _ => ⟨rfl, rfl⟩, fun v i hv => absurd hv (by simp [Client.new]),
        fun v hv => absurd hv (by simp [Client.new]), fun hne => absurd rfl hne⟩
    | invoked c r hc ha hopen heq hb =>
      subst heq
      exact hS.seqs c (List.mem_of_getElem? hc)
    | closing c hc heq hb =>
      subst heq
      exact hS.seqs c (List.mem_of_getElem? hc)
    | died c hc heq hb =>
      subst heq
      exact (hS.seqs c (List.mem_of_getElem? hc)).congr rfl rfl rfl
    | ran c tid t sh pc hc ht ha heq hk hpc hmv =>
      subst heq
      exact (hS.memory hI hO hc ht hmv).1
  · -- the positions that appends have drawn
    intro c' hc' t' ht' data opc' hop
    obtain ⟨cid, hs⟩ := hclient c' hc'
    cases hs with
    | same hc => exact hS.appends c' (List.mem_of_getElem? hc) t' ht' data opc' hop
    | fresh options host hn heq hb =>
      subst heq
      simp only [Client.new, Client.newThreads, List.mem_cons, List.not_mem_nil, or_false] at ht'
      rcases ht' with rfl | rfl | rfl | rfl <;> cases hop
    | invoked c r hc ha hopen heq hb =>
      subst heq
      rcases List.mem_append.mp ht' with ht' | ht'
      · exact hS.appends c (List.mem_of_getElem? hc) t' ht' data opc' hop
      · rw [List.mem_singleton.mp ht'] at hop
        cases hop
        refine ⟨fun p hp => ?_, fun v hv => ?_⟩
        · cases hp
        · cases hv
    | closing c hc heq hb =>
      subst heq
      obtain ⟨t, ht, rfl⟩ := List.mem_map.mp ht'
      split at hop
      · cases hop
      · exact hS.appends c (List.mem_of_getElem? hc) t ht data opc' hop
    | died c hc heq hb =>
      subst heq
      exact (hS.appends c (List.mem_of_getElem? hc) t' ht' data opc' hop).mono (le_refl _)
        fun lb hlb => hlb
    | ran c tid t sh pc hc ht ha heq hk hpc hmv =>
      subst heq
      have hmem := List.mem_of_getElem? hc
      obtain ⟨-, hle, hb⟩ := hS.memory hI hO hc ht hmv
      obtain ⟨i, hi⟩ := List.mem_iff_getElem?.mp ht'
      -- the thread that ran may have drawn one, the others have only seen the counter move
      rcases getElem?_set_cases ht hi with ⟨-, hi⟩ | ⟨rfl, rfl⟩
      · exact (hS.appends c hmem t' (List.mem_of_getElem? hi) data opc' hop).mono hle hb
      · have hop' : pc = .op (.append data) opc' := hop
        subst hop'
        obtain ⟨opc, htpc, -, -⟩ := hpc.op hmv
        have htmem := List.mem_of_getElem? ht
        rw [htpc] at hmv
        refine AppendOk.step (hS.seqs c hmem) (hS.appends c hmem t htmem data opc htpc) ?_ hle hb hmv
        rintro v j rfl
        exact hS.reads c hmem t htmem _ v j htpc (Or.inl ⟨data, rfl⟩)
  · -- the reads of the counter
    intro c' hc' t' ht' r v j hop hr
    obtain ⟨cid, hs⟩ := hclient c' hc'
    cases hs with
    | same hc => exact hS.reads c' (List.mem_of_getElem? hc) t' ht' r v j hop hr
    | fresh options host hn heq hb =>
      subst heq
      simp only [Client.new, Client.newThreads, List.mem_cons, List.not_mem_nil, or_false] at ht'
      rcases ht' with rfl | rfl | rfl | rfl <;> cases hop
    | invoked c r' hc ha hopen heq hb =>
      subst heq
      rcases List.mem_append.mp ht' with ht' | ht'
      · exact hS.reads c (List.mem_of_getElem? hc) t' ht' r v j hop hr
      · rw [List.mem_singleton.mp ht'] at hop
        rcases hr with ⟨data, rfl⟩ | rfl <;> cases hop
    | closing c hc heq hb =>
      subst heq
      obtain ⟨t, ht, rfl⟩ := List.mem_map.mp ht'
      split at hop
      · cases hop
      · exact hS.reads c (List.mem_of_getElem? hc) t ht r v j hop hr
    | died c hc heq hb =>
      subst heq
      exact hS.reads c (List.mem_of_getElem? hc) t' ht' r v j hop hr
    | ran c tid t sh pc hc ht ha heq hk hpc hmv =>
      subst heq
      have hmem := List.mem_of_getElem? hc
      obtain ⟨i, hi⟩ := List.mem_iff_getElem?.mp ht'
      -- the thread that ran has just read the view
      rcases getElem?_set_cases ht hi with ⟨-, hi⟩ | ⟨rfl, rfl⟩
      · exact hS.reads c hmem t' (List.mem_of_getElem? hi) r v j hop hr
      · have hop' : pc = .op r (.sequence v j) := hop
        subst hop'
        obtain ⟨opc, htpc, -, -⟩ := hpc.op hmv
        rw [htpc] at hmv
        have hread : c.shared.view = some v ∧ v.seq = some j := by
          refine hmv.lands_op (P := fun _ pc' => Reads c.shared pc') (fun lb _ => ?_) v j rfl
          rcases hr with ⟨data, rfl⟩ | rfl
          · exact appendOp_sequence opc
          · exact tailOp_sequence opc
        exact ((hS.seqs c hmem).attached v j hread.1 hread.2).1

/-- At the start there is no sequencer. -/
theorem Sequencers.init {options : Options} {host : Host}
    (h : World.init name u options host = some w) : Sequencers u w := by
  have hop : ∀ {c t r pc} {q : Prop}, c ∈ w.clients → t ∈ c.threads → t.pc = .op r pc → q := by
    intro c t r pc q hc ht hpc
    obtain ⟨cid, hcid⟩ := List.mem_iff_getElem?.mp hc
    obtain ⟨tid, htid⟩ := List.mem_iff_getElem?.mp ht
    exact absurd hpc (not_op_init h (World.thread?_eq_some.mpr ⟨c, hcid, htid⟩))
  refine ⟨fun c hc => ?_, fun c hc t ht data pc hpc => hop hc ht hpc,
    fun c hc t ht r v i hpc _ => hop hc ht hpc⟩
  obtain ⟨blob, b, -, -, rfl⟩ := World.init_eq h
  rw [List.mem_singleton.mp hc]
  exact ⟨Nat.zero_le _, fun _ => ⟨rfl, rfl⟩, fun v i hv => absurd hv (by simp),
    fun v hv => absurd hv (by simp), fun hne => absurd rfl hne⟩

/-- **Sequencers**: in every reachable state. -/
theorem Sequencers.of_reaches {options : Options} {host : Host} {w₀ : World}
    (h₀ : World.init name u options host = some w₀) (h : Lib.Reaches World.step w₀ w) :
    Sequencers u w :=
  h.invariant_reaches (I := Sequencers u)
    (fun _ _ _ hr hS _ hs =>
      hS.step ((Good.init h₀).of_reaches hr) (Owners.of_reaches h₀ hr) hs) (Sequencers.init h₀)

end

end ZLog
