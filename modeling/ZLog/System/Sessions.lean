import ZLog.Client.Winning
import ZLog.System.Appends
import ZLog.System.Atomic
import ZLog.System.Collecting
import ZLog.System.Elections

/-!
# Sessions of one client

One client opens the log, works with it and closes it, and may then open it again.  The client that
opened the log last is the newest sequencer, and its counter goes on from the seed with which it
was elected; the clients before it have ended.

## Main results

- `InSession.append_step`: what an append of the session does with the counter.
- `OneSession.ran`: a step of the last client keeps its session.
- `OneSession.checkTail`: `CheckTail` returns the counter.
-/

namespace ZLog

/-- The client has closed the log, or has failed to open it. -/
def Client.ended (c : Client) : Bool :=
  c.threads.any fun t => match t.pc with
    | .opener .closed => true
    | .opener (.failed _) => true
    | _ => false

section

variable {u : Uuid} {name : String} {w w' w₀ : World} {a : Action} {c c' : Client} {cid n n' : Nat}

/-! ## The opening thread -/

/-- The opening thread in a step of its client: it stays, the log is closed, or it moves. -/
inductive OpenerStep (name : String) (w w' : World) (c c' : Client) (pc' : OpenPc) : Prop where
  | still (t : Thread) : t ∈ c.threads → t.pc = .opener pc' →
      c'.shared.readerShutdown = c.shared.readerShutdown → OpenerStep name w w' c c' pc'
  | closes (t : Thread) : t ∈ c.threads → t.pc = .opener .opened → pc' = .shutdownManager →
      c'.shared = c.shared → OpenerStep name w w' c c' pc'
  | moves (t : Thread) (pc : OpenPc) : t ∈ c.threads → t.pc = .opener pc →
      Moves name c (.opener pc) w.backend c'.shared (.opener pc') w'.backend →
      OpenerStep name w w' c c' pc'

theorem ClientStep.opener (hs : ClientStep u name w w' a cid c') (hc : w.clients[cid]? = some c)
    (hlife : LifeOk c) (hlife' : LifeOk c') {t' : Thread} (ht' : t' ∈ c'.threads) {pc' : OpenPc}
    (hpc' : t'.pc = .opener pc') : OpenerStep name w w' c c' pc' := by
  cases hs with
  | same hc' =>
    rw [hc] at hc'
    cases hc'
    exact .still t' ht' hpc' rfl
  | fresh options host hn =>
    rw [hc] at hn
    cases hn
  | invoked c₁ r hc' ha hopen heq hb =>
    rw [hc] at hc'
    cases hc'
    subst heq
    rcases List.mem_append.mp ht' with ht' | ht'
    · exact .still t' ht' hpc' rfl
    · rw [List.mem_singleton.mp ht'] at hpc'
      cases hpc'
  | closing c₁ hc' heq hb =>
    rw [hc] at hc'
    cases hc'
    subst heq
    obtain ⟨t, ht, rfl⟩ := List.mem_map.mp ht'
    split at hpc'
    · -- closing is the one step of the environment that moves an opening thread
      next hopened =>
      cases hpc'
      exact .closes t ht hopened rfl rfl
    · exact .still t ht hpc' rfl
  | died c₁ hc' heq hb =>
    rw [hc] at hc'
    cases hc'
    subst heq
    exact .still t' ht' hpc' rfl
  | ran c₁ tid t sh pc hc' ht ha heq hk hpc hmv =>
    rw [hc] at hc'
    cases hc'
    subst heq
    -- the opening thread is the first one
    obtain ⟨i, hi⟩ := List.mem_iff_getElem?.mp ht'
    obtain rfl := hlife'.others i t' pc' hi hpc'
    obtain ⟨t₀, opc, ht₀, hopc, -, -⟩ := hlife.opener
    rcases getElem?_set_cases ht hi with ⟨hne, hi⟩ | ⟨rfl, rfl⟩
    · have hother : ∀ opc, t.pc ≠ .opener opc := fun opc hop =>
        hne (hlife.others tid t opc ht hop).symm
      exact .still t' (List.mem_of_getElem? hi) hpc' (hmv.lands (Pc.move_reader hother))
    · rw [ht₀] at ht
      cases ht
      have hpc' : pc = .opener pc' := hpc'
      rw [hopc, hpc'] at hmv
      exact .moves t opc (List.mem_of_getElem? ht₀) hopc hmv

/-- A client has one opening thread. -/
theorem LifeOk.opener_unique (h : LifeOk c) {t t' : Thread} {pc pc' : OpenPc} (ht : t ∈ c.threads)
    (ht' : t' ∈ c.threads) (hpc : t.pc = .opener pc) (hpc' : t'.pc = .opener pc') : pc = pc' := by
  obtain ⟨i, hi⟩ := List.mem_iff_getElem?.mp ht
  obtain ⟨j, hj⟩ := List.mem_iff_getElem?.mp ht'
  obtain rfl := h.others i t pc hi hpc
  obtain rfl := h.others j t' pc' hj hpc'
  rw [hi] at hj
  cases hj
  rw [hpc] at hpc'
  cases hpc'
  rfl

/-- What holds along every run, whatever the sessions are. -/
structure Core (u : Uuid) (name : String) (w : World) : Prop extends Good u name w where
  owners : Owners u name w
  sequencers : Sequencers u w
  waits : ∀ (cid : Nat) (c : Client), w.clients[cid]? = some c → WaitsOk c
  reader : ∀ c ∈ w.clients, ∀ t ∈ c.threads, ∀ pc, t.pc = .opener pc →
    c.shared.readerShutdown = true → pc.ReaderDown

theorem Core.step (hB : Core u name w) (h : w.step a = some w') : Core u name w' := by
  have hG := hB.toGood.step h
  -- each part is kept by the step lemma of its own module
  refine ⟨hG, hB.owners.step hB.toGood h, hB.sequencers.step hB.toGood hB.owners h, ?_, ?_⟩
  · intro cid c' hc'
    exact WaitsOk.step (hB.waits cid) (hB.toInv.client_step h hc')
  · intro c' hmem' t' ht' pc' hpc' hdown
    obtain ⟨cid, hc'⟩ := List.mem_iff_getElem?.mp hmem'
    have hs := hB.toInv.client_step h hc'
    cases hcold : w.clients[cid]? with
    | none =>
      -- a new client
      cases hs with
      | fresh options host hn heq hb =>
        rw [heq] at hdown
        cases hdown
      | _ => simp_all
    | some c =>
      have hmem := List.mem_of_getElem? hcold
      rcases hs.opener hcold (hB.life c hmem) (hG.life c' hmem') ht' hpc' with
        ⟨t, ht, hpc, heq⟩ | ⟨t, ht, hpc, rfl, heq⟩ | ⟨t, pc, ht, hpc, hmv⟩
      · -- the flag and the thread are as before, the log was just closed, or the opening thread
        -- moved
        exact hB.reader c hmem t ht pc' hpc (heq ▸ hdown)
      · rw [heq] at hdown
        exact (hB.reader c hmem t ht _ hpc hdown).elim
      · have hlands : Lands c.shared (fun sh pc' => ∀ opc, pc' = .opener opc →
            sh.readerShutdown = true → opc.ReaderDown) ((Pc.opener pc).move name c) := by
          refine Lands.map ((openEntry_reader pc (hB.reader c hmem t ht pc hpc)).imp ?_)
          intro sh opc' hopc opc heq
          cases heq
          exact hopc
        exact hmv.lands hlands pc' rfl hdown

theorem Core.init {options : Options} {host : Host} (h : World.init name u options host = some w) :
    Core u name w := by
  refine ⟨Good.init h, Owners.init h, Sequencers.init h, (Watched.init h).waits, ?_⟩
  obtain ⟨blob, b, -, -, rfl⟩ := World.init_eq h
  intro c hc t ht pc hpc hdown
  rw [List.mem_singleton.mp hc] at hdown
  cases hdown

/-! ## Clients that are over -/

theorem Client.ended_iff : c.ended = true ↔ ∃ t ∈ c.threads, t.pc = .opener .closed ∨
    ∃ e, t.pc = .opener (.failed e) := by
  unfold Client.ended
  rw [List.any_eq_true]
  -- `ended` is computed with a match over the control state
  refine exists_congr fun t => and_congr_right fun _ => ?_
  constructor
  · intro h
    split at h
    · next heq => exact Or.inl heq
    · next e heq => exact Or.inr ⟨e, heq⟩
    · cases h
  · rintro (heq | ⟨e, heq⟩)
    · rw [heq]
    · rw [heq]

/-- A client that is over runs no operation, and its opening thread has come to an end. -/
theorem Client.ended_spec (hlife : LifeOk c) (ho : c.ended = true) :
    (∀ t ∈ c.threads, ¬ t.Running) ∧
    ∀ t ∈ c.threads, ∀ pc, t.pc = .opener pc → pc = .closed ∨ ∃ e, pc = .failed e := by
  obtain ⟨t₁, ht₁, hpc₁⟩ := List.any_eq_true.mp ho
  -- this is the thread that shows that the client is over
  obtain ⟨pc₁, hop₁, hend⟩ : ∃ pc, t₁.pc = .opener pc ∧ (pc = .closed ∨ ∃ e, pc = .failed e) := by
    split at hpc₁
    · next heq => exact ⟨_, heq, Or.inl rfl⟩
    · next e heq => exact ⟨_, heq, Or.inr ⟨e, rfl⟩⟩
    · cases hpc₁
  refine ⟨?_, ?_⟩
  · intro t ht hr
    -- a running operation needs an open log
    obtain ⟨t₀, pc₀, ht₀, hop₀, hrun, -⟩ := hlife.opener
    rw [← hlife.opener_unique (List.mem_of_getElem? ht₀) ht₁ hop₀ hop₁, hrun ⟨t, ht, hr⟩] at hend
    rcases hend with h | ⟨e, h⟩
    · cases h
    · cases h
  · intro t ht pc hpc
    rw [hlife.opener_unique ht ht₁ hpc hop₁]
    exact hend

/-- A client that is over stays so. -/
theorem ClientStep.ended (hs : ClientStep u name w w' a cid c') (hc : w.clients[cid]? = some c)
    (ho : c.ended = true) : c'.ended = true := by
  obtain ⟨t, ht, hend⟩ := Client.ended_iff.mp ho
  -- it is enough that the thread that shows it stays
  have hstays : ∀ t' ∈ c'.threads, t'.pc = t.pc → c'.ended = true := by
    intro t' ht' heq
    exact Client.ended_iff.mpr ⟨t', ht', heq ▸ hend⟩
  cases hs with
  | same hc' =>
    rw [hc] at hc'
    cases hc'
    exact ho
  | fresh options host hn =>
    rw [hc] at hn
    cases hn
  | invoked c₁ r hc' ha hopen heq hb =>
    rw [hc] at hc'
    cases hc'
    subst heq
    exact hstays t (List.mem_append_left _ ht) rfl
  | closing c₁ hc' heq hb =>
    rw [hc] at hc'
    cases hc'
    subst heq
    refine hstays _ (List.mem_map.mpr ⟨t, ht, rfl⟩) ?_
    split
    · -- a log that is open is not over, so `close` does nothing here
      next hopened =>
      rw [hopened] at hend
      rcases hend with h | ⟨e, h⟩
      · cases h
      · cases h
    · rfl
  | died c₁ hc' heq hb =>
    rw [hc] at hc'
    cases hc'
    subst heq
    exact hstays t ht rfl
  | ran c₁ tid t₁ sh pc hc' ht₁ ha heq hk hpc hmv =>
    rw [hc] at hc'
    cases hc'
    subst heq
    obtain ⟨i, hi⟩ := List.mem_iff_getElem?.mp ht
    by_cases hit : i = tid
    · -- the opening thread has no step left
      subst hit
      rw [hi] at ht₁
      cases ht₁
      have hnone := hmv.ne_none
      rcases hend with h | ⟨e, h⟩
      · rw [h] at hnone
        exact absurd rfl hnone
      · rw [h] at hnone
        exact absurd rfl hnone
    · refine hstays t (List.mem_of_getElem? (i := i) ?_) rfl
      rw [List.getElem?_set_ne (Ne.symm hit)]
      exact hi

/-! ## The session -/

/-- The session of the client that opened the log last, after `n` positions were handed out. -/
structure InSession (u : Uuid) (w : World) (c : Client) (n : Nat) : Prop where
  /-- Nobody became the sequencer after this client. -/
  newest : ∀ e v cfg e' v' cfg', ViewAt (viewsOf u w.backend) e v → v.seqConfig = some cfg →
    c.shared.Owns cfg → ViewAt (viewsOf u w.backend) e' v' → v'.seqConfig = some cfg' →
    cfg'.epoch ≤ cfg.epoch
  /-- The seed is behind the positions of the sessions before. -/
  seed : c.shared.seqs = [] → ∀ e v cfg, ViewAt (viewsOf u w.backend) e v →
    v.seqConfig = some cfg → c.shared.Owns cfg → cfg.position = n
  counter : c.shared.seqs ≠ [] → c.shared.counter = n
  /-- A client that waits for its configuration has one. -/
  elected : ∀ t ∈ c.threads, ∀ pc wait, t.pc = .opener pc → pc.elected? = some wait →
    ∃ e v cfg, ViewAt (viewsOf u w.backend) e v ∧ v.seqConfig = some cfg ∧ c.shared.Owns cfg ∧
      cfg.epoch ≤ wait.epoch + 1
  /-- An open log has a sequencer. -/
  ready : ∀ t ∈ c.threads, ∀ pc, t.pc = .opener pc → pc.Ready → c.shared.seqs ≠ []
  holds : ∀ t ∈ c.threads, ∀ data pc, t.pc = .op (.append data) pc → pc.InFlight →
    pc.Holds c.shared

/-- A client whose opening thread has not won owns no stored configuration. -/
theorem Core.not_owned (hB : Core u name w) (hc : w.clients[cid]? = some c) {t : Thread}
    (ht : t ∈ c.threads) {pc : OpenPc} (hpc : t.pc = .opener pc) (hnot : ¬ pc.Won) {e : Nat}
    {v : View} {cfg : SequencerConfig} (hv : ViewAt (viewsOf u w.backend) e v)
    (hcfg : v.seqConfig = some cfg) : ¬ c.shared.Owns cfg := by
  rintro ⟨lb, hlb, htok⟩
  obtain ⟨tid, htid⟩ := List.mem_iff_getElem?.mp ht
  obtain ⟨id, hid⟩ := hB.owners.handle c (List.mem_of_getElem? hc) lb hlb
  exact hB.owners.not_owned hB.toGood hc htid hpc hnot hlb hid hv hcfg (htok.trans hid)

/-- Nor has it a sequencer. -/
theorem Core.no_seqs (hB : Core u name w) (hc : w.clients[cid]? = some c) {t : Thread}
    (ht : t ∈ c.threads) {pc : OpenPc} (hpc : t.pc = .opener pc) (hnot : ¬ pc.Won) :
    c.shared.seqs = [] := by
  by_contra hne
  obtain ⟨-, e, v, cfg, -, -, hv, hcfg, ho, -⟩ :=
    (hB.sequencers.seqs c (List.mem_of_getElem? hc)).made hne
  exact hB.not_owned hc ht hpc hnot hv hcfg ho

/-- While nobody else became the sequencer, a view from an own configuration on has the
    sequencer. -/
theorem InSession.attached (h : InSession u w c n) (hB : Core u name w) (hc : c ∈ w.clients)
    {e : Nat} {v : View} {cfg : SequencerConfig} {cur : VersionedView}
    (hv : ViewAt (viewsOf u w.backend) e v) (hcfg : v.seqConfig = some cfg)
    (ho : c.shared.Owns cfg) (hcur : c.shared.view = some cur) (hle : cfg.epoch ≤ cur.epoch) :
    cur.seq = some 0 := by
  obtain ⟨v₀, hv₀, hcfg₀⟩ := hB.log.history.config_origin hv hcfg
  -- no later configuration exists, so the view still has this one
  have hlast : cur.seqConfig = some cfg :=
    hB.log.history.last_config hv₀ hcfg₀
      (fun e' v' cfg' hv' hcfg' => h.newest e v cfg e' v' cfg' hv hcfg ho hv' hcfg')
      ((hB.clients c hc).shared.view cur hcur) hle
  exact (hB.sequencers.seqs c hc).own cur hcur ⟨cfg, hlast, ho⟩

/-- A client with a sequencer has a view with it. -/
theorem InSession.view (h : InSession u w c n) (hB : Core u name w) (hc : c ∈ w.clients)
    (hne : c.shared.seqs ≠ []) : ∃ cur, c.shared.view = some cur ∧ cur.seq = some 0 := by
  obtain ⟨cur, e, v, cfg, hcur, hle, hv, hcfg, ho, -⟩ := (hB.sequencers.seqs c hc).made hne
  have hepoch := (hB.log.history.config e v cfg hv hcfg).2
  exact ⟨cur, hcur, h.attached hB hc hv hcfg ho hcur (by omega)⟩

/-! ## The counter -/

/-- The counter in a step: it stays, it starts from the seed of a configuration of the client, or
    a position is drawn. -/
inductive SeqMove (u : Uuid) (b : Store) (sh : Shared) (n : Nat) : Shared → Nat → Prop where
  | same {sh' : Shared} : sh'.seqs = sh.seqs → SeqMove u b sh n sh' n
  | attached {sh' : Shared} (e : Nat) (v : View) (cfg : SequencerConfig) : sh.seqs = [] →
      ViewAt (viewsOf u b) e v → v.seqConfig = some cfg → sh.Owns cfg →
      sh'.seqs = [⟨e, cfg.position⟩] → SeqMove u b sh n sh' n
  | drawn {sh' : Shared} (seq : Sequencer) : Draws sh sh' 0 seq → SeqMove u b sh n sh' (n + 1)

/-- Only an append draws. -/
theorem Core.seqMove (hB : Core u name w) (hc : w.clients[cid]? = some c) {tid : Nat} {t : Thread}
    (ht : c.threads[tid]? = some t) {sh : Shared} {pc : Pc}
    (hmv : Moves name c t.pc w.backend sh pc w'.backend) (n : Nat) :
    SeqMove u w.backend c.shared n sh n ∨
      ∃ data v seq, t.pc = .op (.append data) (.sequence v 0) ∧ Draws c.shared sh 0 seq := by
  have hmem := List.mem_of_getElem? hc
  have htmem := List.mem_of_getElem? ht
  obtain ⟨hseq, -, -⟩ := hB.sequencers.memory hB.toInv hB.owners hc ht hmv
  -- what the step does to the memory decides: most leave the sequencers alone
  rcases hmv.memory with hq | ⟨lb, e, blob, hlb, hi, hpc⟩ | ⟨data, v, i, seq, hpc, hd⟩ |
    ⟨hoid, pfx, id, hpc, rfl⟩ | ⟨-, rfl⟩
  · exact Or.inl (.same hq.seqs)
  · obtain ⟨view, seqs, seq, hdec, hat, rfl⟩ := hi.view
    -- the fetched view attaches nothing, keeps the sequencer, or attaches a new one
    rcases attachSequencer_cases hat with ⟨rfl, -, -⟩ | ⟨-, -, -, -, -, -, -, -, -, -, rfl, -⟩ |
      ⟨cfg, hcfg, htok, rfl, -, -⟩
    · exact Or.inl (.same rfl)
    · exact Or.inl (.same rfl)
    · have hblob : BlobAt u w.backend e blob := by
        have hok := (hB.clients c hmem).threads t htmem
        rcases hpc with hpc | hpc <;> rw [hpc] at hok <;> exact hok
      obtain ⟨view', hdec', hview⟩ := hblob
      rw [hdec] at hdec'
      cases hdec'
      -- a client attaches at most one sequencer
      have hempty : c.shared.seqs = [] := by
        have hone := hseq.one
        rw [List.length_append, List.length_singleton] at hone
        exact List.eq_nil_of_length_eq_zero (by omega)
      refine Or.inl (.attached e view cfg hempty hview hcfg ⟨lb, hlb, htok⟩ ?_)
      rw [hempty, List.nil_append]
  · obtain rfl := hB.sequencers.reads c hmem t htmem _ v i hpc (Or.inl ⟨data, rfl⟩)
    exact Or.inr ⟨data, v, seq, hpc, hd⟩
  · exact Or.inl (.same rfl)
  · exact Or.inl (.same rfl)

theorem SeqMove.nonempty {b : Store} {sh sh' : Shared} {n' : Nat} (h : SeqMove u b sh n sh' n')
    (hne : sh.seqs ≠ []) : sh'.seqs ≠ [] := by
  cases h with
  | same heq => exact heq ▸ hne
  | attached e v cfg hempty => exact absurd hempty hne
  | drawn seq hd =>
    intro hnil
    have hnext := hd.next
    rw [hnil] at hnext
    cases hnext

/-- Without a sequencer no position is drawn. -/
theorem SeqMove.stays {b : Store} {sh sh' : Shared} {n' : Nat} (h : SeqMove u b sh n sh' n')
    (hnil : sh.seqs = []) : n' = n := by
  cases h with
  | same => rfl
  | attached => rfl
  | drawn seq hd => exact absurd hnil hd.ne_nil

/-- The counter is the number of positions that were handed out. -/
theorem SeqMove.counter {b : Store} {sh sh' : Shared} {n' : Nat} (h : SeqMove u b sh n sh' n')
    (hcount : sh.seqs ≠ [] → sh.counter = n)
    (hseed : sh.seqs = [] → ∀ e v cfg, ViewAt (viewsOf u b) e v → v.seqConfig = some cfg →
      sh.Owns cfg → cfg.position = n) (hne : sh'.seqs ≠ []) : sh'.counter = n' := by
  cases h with
  -- the same sequencers
  | same heq =>
    unfold Shared.counter at hcount ⊢
    rw [heq] at hne ⊢
    exact hcount hne
  | attached e v cfg hempty hv hcfg ho heq =>
    unfold Shared.counter
    -- a new one starts at its seed
    rw [heq]
    exact hseed hempty e v cfg hv hcfg ho
  | drawn seq hd =>
    have hold := hcount hd.ne_nil
    rw [hd.counter] at hold
    rw [hd.counter_next, hold]

/-- The sequencer stays the one from which a position was drawn. -/
theorem SeqMove.holds {b : Store} {sh sh' : Shared} {n' : Nat} (h : SeqMove u b sh n sh' n')
    {pc : OpPc} (hpc : pc.Holds sh) : pc.Holds sh' := by
  intro p hp
  -- the position was drawn from a sequencer that is still there
  obtain ⟨seq, hseq, he⟩ := hpc p hp
  cases h with
  | same heq => exact ⟨seq, by rw [heq, hseq], he⟩
  | attached e v cfg hempty =>
    rw [hempty] at hseq
    cases hseq
  | drawn seq' hd =>
    rw [hd.found] at hseq
    cases hseq
    exact ⟨_, hd.next, he⟩

theorem AppendStep.holds {sh sh' : Shared} {pc pc' : OpPc} (h : AppendStep sh pc sh' pc')
    (hpc : pc.Holds sh) (hf : pc'.InFlight) : pc'.Holds sh' := by
  intro p hp
  cases h with
  | failed sh' e => exact absurd rfl (hf _)
  | seeks v => cases hp
  | draws v seq hfrom hd hpos hin => exact ⟨_, hd.next, hin⟩
  | keeps q hq hq' hin hseqs =>
    rw [hq'] at hp
    cases hp
    obtain ⟨seq, hseq, he⟩ := hpc p hq
    exact ⟨seq, hseqs ▸ hseq, hin.trans he⟩
  | writes v oid q pe => exact absurd rfl (hf _)

/-! ## Steps of the session -/

/-- A client that has not won owns nothing, and has no sequencer. -/
theorem InSession.of_lost (hB : Core u name w) (hc : w.clients[cid]? = some c) {t : Thread}
    (ht : t ∈ c.threads) {pc : OpenPc} (hpc : t.pc = .opener pc) (hnot : ¬ pc.Won) (n : Nat) :
    InSession u w c n := by
  have hmem := List.mem_of_getElem? hc
  have hlife := hB.life c hmem
  have hown : ∀ e v cfg, ViewAt (viewsOf u w.backend) e v → v.seqConfig = some cfg →
      ¬ c.shared.Owns cfg := fun _ _ _ => hB.not_owned hc ht hpc hnot
  -- all fields are empty, but the waits and the operations, which need a client that has won
  refine ⟨?_, ?_, ?_, ?_, ?_, ?_⟩
  · intro e v cfg _ _ _ hv hcfg ho
    exact absurd ho (hown e v cfg hv hcfg)
  · intro _ e v cfg hv hcfg ho
    exact absurd ho (hown e v cfg hv hcfg)
  · intro hne
    exact absurd (hB.no_seqs hc ht hpc hnot) hne
  · intro t' ht' pc' wait hpc' he
    obtain rfl := hlife.opener_unique ht ht' hpc hpc'
    exact absurd (OpenPc.won_of_elected he) hnot
  · intro t' ht' pc' hpc' hr
    obtain rfl := hlife.opener_unique ht ht' hpc hpc'
    exact absurd hr.won hnot
  · intro t' ht' data opc hpc' hf
    -- an operation runs only on an open log
    obtain ⟨t₀, pc₀, ht₀, hpc₀, hrun, -⟩ := hlife.opener
    obtain rfl := hlife.opener_unique ht (List.mem_of_getElem? ht₀) hpc hpc₀
    have hopened := hrun ⟨t', ht', .append data, opc, hpc', hf⟩
    subst hopened
    exact absurd trivial hnot

/-- No client becomes the sequencer. -/
structure Unelected (u : Uuid) (w w' : World) : Prop where
  views : viewsOf u w.backend <+: viewsOf u w'.backend
  config : ∀ e v cfg, ViewAt (viewsOf u w'.backend) e v → v.seqConfig = some cfg →
    ∃ e₀ v₀, ViewAt (viewsOf u w.backend) e₀ v₀ ∧ v₀.seqConfig = some cfg

theorem Unelected.of_same (h : w'.backend = w.backend) : Unelected u w w' := by
  refine ⟨h ▸ List.prefix_refl _, ?_⟩
  intro e v cfg hv hcfg
  rw [h] at hv
  exact ⟨e, v, hv, hcfg⟩

theorem InSession.newest_step (h : InSession u w c n) (hv : Unelected u w w')
    (hb : c'.shared.backend = c.shared.backend) {e e' : Nat} {v v' : View}
    {cfg cfg' : SequencerConfig} (hva : ViewAt (viewsOf u w'.backend) e v)
    (hcfg : v.seqConfig = some cfg) (ho : c'.shared.Owns cfg)
    (hva' : ViewAt (viewsOf u w'.backend) e' v') (hcfg' : v'.seqConfig = some cfg') :
    cfg'.epoch ≤ cfg.epoch := by
  obtain ⟨e₀, v₀, hv₀, hcfg₀⟩ := hv.config e v cfg hva hcfg
  obtain ⟨e₁, v₁, hv₁, hcfg₁⟩ := hv.config e' v' cfg' hva' hcfg'
  exact h.newest e₀ v₀ cfg e₁ v₁ cfg' hv₀ hcfg₀ (ho.mono fun lb hlb => hb ▸ hlb) hv₁ hcfg₁

theorem InSession.rests (h : InSession u w c n) (hr : c.Rests c') (hv : Unelected u w w') :
    InSession u w' c' n := by
  -- the handle does not change, so neither do the own configurations
  have howns : ∀ {cfg}, c'.shared.Owns cfg → c.shared.Owns cfg := fun ho =>
    ho.mono fun lb hlb => hr.backend ▸ hlb
  refine ⟨fun e v cfg e' v' cfg' => h.newest_step hv hr.backend, ?_, ?_, ?_, ?_, ?_⟩
  · intro hnil e v cfg hva hcfg ho
    obtain ⟨e₀, v₀, hv₀, hcfg₀⟩ := hv.config e v cfg hva hcfg
    exact h.seed (hr.seqs ▸ hnil) e₀ v₀ cfg hv₀ hcfg₀ (howns ho)
  · intro hne
    have hcount := h.counter (hr.seqs ▸ hne)
    unfold Shared.counter at hcount ⊢
    rw [hr.seqs]
    exact hcount
  · -- no new thread waits for an election
    intro t' ht' pc wait hpc he
    rcases hr.threads t' ht' with ⟨t, ht, heq⟩ | ⟨r, heq⟩ | heq
    · obtain ⟨e, v, cfg, hva, hcfg, ho, hle⟩ := h.elected t ht pc wait (heq ▸ hpc) he
      exact ⟨e, v, cfg, hva.mono hv.views, hcfg, ho.mono fun lb hlb => hr.backend ▸ hlb, hle⟩
    · rw [hpc] at heq
      cases heq
    · rw [hpc] at heq
      cases heq
      cases he
  · intro t' ht' pc hpc hready
    rw [hr.seqs]
    rcases hr.threads t' ht' with ⟨t, ht, heq⟩ | ⟨r, heq⟩ | heq
    · exact h.ready t ht pc (heq ▸ hpc) hready
    · rw [hpc] at heq
      cases heq
    · rw [hpc] at heq
      cases heq
      exact hready.elim
  · -- an append that has just begun holds no position
    intro t' ht' data opc hpc hf
    have hheld : opc.Holds c.shared := by
      rcases hr.threads t' ht' with ⟨t, ht, heq⟩ | ⟨r, heq⟩ | heq
      · exact h.holds t ht data opc (heq ▸ hpc) hf
      · rw [hpc] at heq
        cases heq
        intro p hp
        cases hp
      · rw [hpc] at heq
        cases heq
    intro p hp
    obtain ⟨seq, hseq, he⟩ := hheld p hp
    exact ⟨seq, hr.seqs ▸ hseq, he⟩

/-- When the wait of the winner is over, it has its sequencer. -/
theorem InSession.waited (h : InSession u w c n) (hB : Core u name w)
    (hc : w.clients[cid]? = some c) {t : Thread} (ht : t ∈ c.threads) {pc : OpenPc}
    (hpc : t.pc = .opener pc) {wait : WaitPc} (he : pc.elected? = some wait)
    (ho : wait.Over c.shared) : c.shared.seqs ≠ [] := by
  have hmem := List.mem_of_getElem? hc
  obtain ⟨e, v, cfg, hv, hcfg, hown, hle⟩ := h.elected t ht pc wait hpc he
  obtain rfl : pc = .propose (.waitNew wait) := by
    unfold OpenPc.elected? at he
    split at he
    · cases he
      rfl
    · cases he
  -- a closed reader would end the wait too, but not for this thread
  have hup : c.shared.readerShutdown ≠ true := hB.reader c hmem t ht _ hpc
  cases wait with
  -- the two ways out of `wait_for_newer_view` at this stage: entering it, and being woken
  | enter epoch => exact absurd ho hup
  | blocked x =>
    have hwait : t.pc.wait? = some (.blocked x) := by rw [hpc]; rfl
    rcases (hB.waits cid c hc).blocked t ht x hwait with hin | hdown | ⟨cur, hcur, hreach⟩
    · exact absurd hin ho
    · exact absurd hdown hup
    · -- the view that ends the wait has the configuration of the client
      have hle : cfg.epoch ≤ x.epoch + 1 := hle
      have hseq := h.attached hB hmem hv hcfg hown hcur (by omega)
      exact ((hB.sequencers.seqs c hmem).attached cur 0 hcur hseq).2.2

theorem Moves.wins {b b' : Store} {sh : Shared} {pc pc' : OpenPc}
    (h : Moves name c (.opener pc) b sh (.opener pc') b') : WinStep c.shared pc pc' := by
  have hlands : Lands c.shared (fun _ next => ∀ opc, next = .opener opc → WinStep c.shared pc opc)
      ((Pc.opener pc).move name c) := by
    refine Lands.map ((openEntry_wait pc).imp ?_)
    intro _ opc' hwin opc heq
    cases heq
    exact hwin
  exact h.lands hlands pc' rfl

/-- A step of a thread of the client, once it has won. -/
theorem InSession.ran (h : InSession u w c n) (hB : Core u name w) (hB' : Core u name w')
    (hs : ClientStep u name w w' a cid c') (hv : Unelected u w w')
    (hc : w.clients[cid]? = some c) (hc' : w'.clients[cid]? = some c')
    (hwon : ∀ t ∈ c.threads, ∀ pc, t.pc = .opener pc → pc.Won)
    {tid n' : Nat} {t t' : Thread} {sh : Shared} (ht : c.threads[tid]? = some t)
    (heq : c' = { c with shared := sh, threads := c.threads.set tid t' })
    (hmv : Moves name c t.pc w.backend sh t'.pc w'.backend)
    (hseqs : SeqMove u w.backend c.shared n sh n')
    (hholds : ∀ data opc, t'.pc = .op (.append data) opc → opc.InFlight → opc.Holds sh) :
    InSession u w' c' n' := by
  have hmem := List.mem_of_getElem? hc
  have htmem := List.mem_of_getElem? ht
  -- the opening thread after the step
  have hopener := fun {t'} (ht' : t' ∈ c'.threads) {pc'} (hpc' : t'.pc = .opener pc') =>
    hs.opener hc (hB.life c hmem) (hB'.life c' (List.mem_of_getElem? hc')) ht' hpc'
  subst heq
  have hback : sh.backend = c.shared.backend := by
    rcases hmv.handle with heq | ⟨hoid, pfx, id, hpc, -⟩
    · exact heq
    · exact (hwon t htmem _ hpc).elim
  have howns : ∀ {cfg}, c.shared.Owns cfg → sh.Owns cfg := fun ho =>
    ho.mono fun lb hlb => hback ▸ hlb
  refine ⟨fun e v cfg e' v' cfg' => h.newest_step hv hback, ?_, ?_, ?_, ?_, ?_⟩
  · intro hnil e v cfg hva hcfg ho
    obtain ⟨e₀, v₀, hv₀, hcfg₀⟩ := hv.config e v cfg hva hcfg
    -- a sequencer is never dropped
    have hnil₀ : c.shared.seqs = [] := by
      by_contra hne
      exact hseqs.nonempty hne hnil
    rw [hseqs.stays hnil₀]
    exact h.seed hnil₀ e₀ v₀ cfg hv₀ hcfg₀ (ho.mono fun lb hlb => hback ▸ hlb)
  · exact hseqs.counter h.counter h.seed
  · intro t₁ ht₁ pc wait hpc he
    -- the wait of before the step, or the one entered in it, which needs an election
    have hold : ∃ t₀ ∈ c.threads, ∃ pc₀ wait₀, t₀.pc = .opener pc₀ ∧
        pc₀.elected? = some wait₀ ∧ wait₀.epoch = wait.epoch := by
      cases hopener ht₁ hpc with
      | still t₀ ht₀ hpc₀ => exact ⟨t₀, ht₀, pc, wait, hpc₀, he, rfl⟩
      | closes t₀ ht₀ hpc₀ heq =>
        rw [heq] at he
        cases he
      | moves t₀ pc₀ ht₀ hpc₀ hmv₀ =>
        have hwin : WinStep c.shared pc₀ pc := hmv₀.wins
        rcases hwin.waits wait he with ⟨retries, curr, seed, rfl⟩ | ⟨wait₀, he₀, hepoch⟩
        · exact (hwon t₀ ht₀ _ hpc₀).elim
        · exact ⟨t₀, ht₀, pc₀, wait₀, hpc₀, he₀, hepoch⟩
    obtain ⟨t₀, ht₀, pc₀, wait₀, hpc₀, he₀, hepoch⟩ := hold
    obtain ⟨e, v, cfg, hva, hcfg, ho, hle⟩ := h.elected t₀ ht₀ pc₀ wait₀ hpc₀ he₀
    exact ⟨e, v, cfg, hva.mono hv.views, hcfg, howns ho, hepoch ▸ hle⟩
  · intro t₁ ht₁ pc hpc hready
    refine hseqs.nonempty ?_
    cases hopener ht₁ hpc with
    | still t₀ ht₀ hpc₀ => exact h.ready t₀ ht₀ pc hpc₀ hready
    | closes t₀ ht₀ hpc₀ heq =>
      rw [heq] at hready
      exact hready.elim
    -- the session is ready when the wait is over
    | moves t₀ pc₀ ht₀ hpc₀ hmv₀ =>
      have hwin : WinStep c.shared pc₀ pc := hmv₀.wins
      rcases hwin.ready hready with hr | ⟨wait, he, ho⟩
      · exact h.ready t₀ ht₀ pc₀ hpc₀ hr
      · exact h.waited hB hc ht₀ hpc₀ he ho
  · intro t₁ ht₁ data opc hpc hf
    rcases List.mem_or_eq_of_mem_set ht₁ with ht₁ | rfl
    · exact hseqs.holds (h.holds t₁ ht₁ data opc hpc hf)
    · exact hholds data opc hpc hf

/-- The token that is stored is the token of the client, unless a NUL cuts it. -/
theorem Core.token (hB : Core u name w) (hnul : '\x00' ∉ name.toList) (hc : c ∈ w.clients)
    {lb : LogBackend} (hlb : c.shared.backend = some lb) : cStr lb.token = lb.token := by
  obtain ⟨id, hid⟩ := hB.owners.handle c hc lb hlb
  rw [cStr_eq_iff, hid, nulFree_makeToken_iff]
  exact hnul

/-- A client wins the election: its configuration is the newest one, with the next position. -/
theorem InSession.elects (hB : Core u name w) (hB' : Core u name w')
    (hnul : '\x00' ∉ name.toList) (hc : w.clients[cid]? = some c)
    (hc' : w'.clients[cid]? = some c') {tid retries seed : Nat} {curr : VersionedView} {t t' : Thread}
    (ht : c.threads[tid]? = some t) (hpc : t.pc = .opener (.propose (.propose retries curr seed)))
    (heq : c' = { c with threads := c.threads.set tid t' })
    (hpc' : t'.pc = .opener (.propose (.waitNew (.enter curr.epoch)))) {lb : LogBackend}
    (hlb : c.shared.backend = some lb) {v' : View} (hepoch : curr.epoch = latestEpoch u w.backend)
    (hviews : viewsOf u w'.backend = viewsOf u w.backend ++ [v'])
    (hcfg' : v'.seqConfig = some ⟨latestEpoch u w.backend + 1, cStr lb.token, seed⟩) :
    InSession u w' c' seed := by
  have hmem := List.mem_of_getElem? hc
  have htmem := List.mem_of_getElem? ht
  have hold : ∀ e v cfg, ViewAt (viewsOf u w.backend) e v → v.seqConfig = some cfg →
      ¬ c.shared.Owns cfg := fun _ _ _ => hB.not_owned hc htmem hpc id
  have hnil := hB.no_seqs hc htmem hpc id
  have hlife := hB'.life c' (List.mem_of_getElem? hc')
  have hshared : c'.shared = c.shared := by rw [heq]
  have hmem' : t' ∈ c'.threads := by
    rw [heq]
    exact List.mem_of_getElem? (List.getElem?_set_self (lt_of_getElem?_eq_some ht))
  -- the new view is the only one with an own configuration
  have hown : ∀ e v cfg, ViewAt (viewsOf u w'.backend) e v → v.seqConfig = some cfg →
      c'.shared.Owns cfg → cfg = ⟨latestEpoch u w.backend + 1, cStr lb.token, seed⟩ := by
    intro e v cfg hv hcfg ho
    rw [hviews] at hv
    rw [hshared] at ho
    rcases viewAt_append hv with hv | ⟨-, rfl⟩
    · exact absurd ho (hold e v cfg hv hcfg)
    · rw [hcfg'] at hcfg
      cases hcfg
      rfl
  refine ⟨?_, ?_, ?_, ?_, ?_, ?_⟩
  · -- the new configuration has the greatest epoch
    intro e v cfg e₁ v₁ cfg₁ hv hcfg ho hv₁ hcfg₁
    rw [hown e v cfg hv hcfg ho]
    have hle := (hB'.log.history.config e₁ v₁ cfg₁ hv₁ hcfg₁).2
    have hlen := hv₁.le_length
    rw [hviews, List.length_append, List.length_singleton] at hlen
    change cfg₁.epoch ≤ (viewsOf u w.backend).length + 1
    omega
  · intro _ e v cfg hv hcfg ho
    rw [hown e v cfg hv hcfg ho]
  · intro hne
    rw [hshared] at hne
    exact absurd hnil hne
  · -- the new wait is for the view just stored
    intro t₁ ht₁ pc wait hpc₁ he
    obtain rfl := hlife.opener_unique hmem' ht₁ hpc' hpc₁
    cases he
    refine ⟨(viewsOf u w.backend).length + 1, v', _, ?_, hcfg',
      ⟨lb, hshared ▸ hlb, hB.token hnul hmem hlb⟩, ?_⟩
    · rw [hviews]
      exact viewAt_append_last _ _
    · exact le_of_eq (congrArg (· + 1) hepoch.symm)
  · intro t₁ ht₁ pc hpc₁ hready
    obtain rfl := hlife.opener_unique hmem' ht₁ hpc' hpc₁
    exact hready.elim
  · intro t₁ ht₁ data opc hpc₁ hf
    -- no operation runs before the log is open
    obtain ⟨t₀, pc₀, ht₀, hpc₀, hrun, -⟩ := hlife.opener
    obtain rfl := hlife.opener_unique hmem' (List.mem_of_getElem? ht₀) hpc' hpc₀
    cases hrun ⟨t₁, ht₁, .append data, opc, hpc₁, hf⟩

/-- An append of the session takes a step as described. -/
theorem InSession.append_step (h : InSession u w c n) (hB : Core u name w) (hc : c ∈ w.clients)
    {t : Thread} (ht : t ∈ c.threads) {sh : Shared} {data : String} {opc opc' : OpPc}
    (hpc : t.pc = .op (.append data) opc) (hflight : opc.InFlight)
    (hmv : Moves name c (.op (.append data) opc) w.backend sh (.op (.append data) opc') w'.backend) :
    AppendStep c.shared opc sh opc' ∨ GivesUp u w.backend c.shared opc sh opc' := by
  have hcok := hB.clients c hc
  have hok := hcok.threads t ht
  rw [hpc] at hok
  refine hmv.gives_op (P := fun sh' pc' => AppendStep c.shared opc sh' pc' ∨
    GivesUp u w.backend c.shared opc sh' pc') fun lb hlb => ?_
  refine appendOp_gives hB.log (hcok.shared.backend lb hlb) hok (h.holds t ht data opc hpc hflight)
    ?_ ?_
  · intro v i hv hi
    exact ((hB.sequencers.seqs c hc).attached v i hv hi).1
  · intro v i hfrom
    rw [hfrom] at hpc
    exact hB.sequencers.reads c hc t ht _ v i hpc (Or.inl ⟨data, rfl⟩)

/-- The log is open while an operation runs, so there is a sequencer. -/
theorem InSession.running (h : InSession u w c n) (hB : Core u name w) (hc : c ∈ w.clients)
    {t : Thread} (ht : t ∈ c.threads) (hr : t.Running) : c.shared.seqs ≠ [] := by
  obtain ⟨t₀, pc₀, ht₀, hpc₀, hopen, -⟩ := (hB.life c hc).opener
  rw [hopen ⟨t, ht, hr⟩] at hpc₀
  exact h.ready t₀ (List.mem_of_getElem? ht₀) _ hpc₀ trivial

/-- An operation that needs the sequencer does not fail for want of it. -/
theorem InSession.no_eio (h : InSession u w c n) (hB : Core u name w) {tid : Nat}
    (hrun : w.step (.run cid tid) = some w') (hc : w.clients[cid]? = some c) {t : Thread}
    (ht : t ∈ c.threads) (hr : t.Running) {r : Request} (hreq : r.Sequenced) {t' : Thread}
    (ht' : w'.thread? cid tid = some t') : t'.pc ≠ .op r (.done (.error .eio)) := by
  intro heio
  have hmem := List.mem_of_getElem? hc
  -- the current view has a sequencer throughout the session
  obtain ⟨cur, hcur, hseq⟩ := h.view hB hmem (h.running hB hmem ht hr)
  obtain ⟨d, hd, x, hx, hnone⟩ := hB.toInv.headless_of_eio hrun hreq ht' heio
  rw [hc] at hd
  cases hd
  rw [hcur] at hx
  cases hx
  rw [hseq] at hnone
  cases hnone

theorem Inv.unelected (hI : Inv u name w) (h : w.step a = some w')
    (hno : ∀ cid tid c t retries curr seed, a = .run cid tid → w.clients[cid]? = some c →
      c.threads[tid]? = some t → t.pc ≠ .opener (.propose (.propose retries curr seed))) :
    Unelected u w w' := by
  refine ⟨(hI.step h).2.grows.views, ?_⟩
  intro e v cfg hv hcfg
  -- a configuration of a stored view, or of one just accepted
  rcases (hI.views_step h).config hv hcfg with hold |
    ⟨cid, tid, c, t, -, retries, curr, -, ha, hc, ht, -, hpc, -⟩
  · exact hold
  · exact absurd hpc (hno cid tid c t retries curr _ ha hc ht)

/-! ## One session at a time -/

/-- One client works with the log; those before it are over. -/
structure OneSession (u : Uuid) (name : String) (w : World) (n : Nat) : Prop extends Core u name w where
  ended : ∀ (i : Nat) (c : Client), w.clients[i]? = some c → i + 1 < w.clients.length →
    c.ended = true
  last : ∀ (i : Nat) (c : Client), w.clients[i]? = some c → i + 1 = w.clients.length →
    InSession u w c n

/-- The next client opens the log when all the others are over. -/
theorem OneSession.of_open (hB' : Core u name w')
    (hover : ∀ c ∈ w.clients, c.ended = true) {options : Options} {host : Host}
    (hclients : w'.clients = w.clients ++ [Client.new options host w.clock]) (m : Nat) :
    OneSession u name w' m := by
  -- one client more than before
  have hlen : w'.clients.length = w.clients.length + 1 := by
    rw [hclients, List.length_append, List.length_singleton]
  refine ⟨hB', ?_, ?_⟩
  · intro i d hd hi
    rw [hclients, List.getElem?_append_left (by omega)] at hd
    exact hover d (List.mem_of_getElem? hd)
  · intro i d hd hi
    have hd₀ := hd
    rw [hclients] at hd₀
    rcases getElem?_snoc hd₀ with hold | ⟨-, rfl⟩
    · have hlt := lt_of_getElem?_eq_some hold
      omega
    · -- the new client is about to look the log up
      exact .of_lost hB' hd (t := ⟨.opener .openLog, w.clock, none, []⟩) List.mem_cons_self rfl id m

/-- The clients before the last one stay ended. -/
theorem OneSession.ended_step (hS : OneSession u name w n) (h : w.step a = some w')
    (hset : w'.clients = w.clients.set cid c') {i : Nat} {d' : Client}
    (hd' : w'.clients[i]? = some d') (hi : i + 1 < w'.clients.length) : d'.ended = true := by
  rw [hset, List.length_set] at hi
  obtain ⟨d, hd⟩ : ∃ d, w.clients[i]? = some d :=
    ⟨_, List.getElem?_eq_getElem (Nat.lt_of_succ_lt hi)⟩
  exact (hS.toInv.client_step h hd').ended hd (hS.ended i d hd hi)

/-- A step in which the last client stands still. -/
theorem OneSession.last_rests (hS : OneSession u name w n) (hc : w.clients[cid]? = some c)
    (hset : w'.clients = w.clients.set cid c') (hv : Unelected u w w')
    (hr : cid + 1 = w.clients.length → c.Rests c') {i : Nat} {d' : Client}
    (hd' : w'.clients[i]? = some d') (hi : i + 1 = w'.clients.length) : InSession u w' d' n := by
  rw [hset, List.length_set] at hi
  rw [hset] at hd'
  rcases getElem?_set_cases hc hd' with ⟨-, hd⟩ | ⟨rfl, rfl⟩
  · exact (hS.last i d' hd hi).rests (.refl d') hv
  · exact (hS.last i c hc hi).rests (hr hi) hv

/-- A step in which the client stands still. -/
theorem OneSession.rests (hS : OneSession u name w n) (h : w.step a = some w')
    (hc : w.clients[cid]? = some c) (hset : w'.clients = w.clients.set cid c')
    (hb : w'.backend = w.backend) (hr : c.Rests c') : OneSession u name w' n :=
  ⟨hS.toCore.step h, fun _ _ => hS.ended_step h hset,
    fun _ _ => hS.last_rests hc hset (.of_same hb) fun _ => hr⟩

/-- The threads of a client that is over run no operation. -/
theorem OneSession.over_idle (hS : OneSession u name w n) (hc : w.clients[cid]? = some c)
    (hover : cid + 1 < w.clients.length) {t : Thread} (ht : t ∈ c.threads) : ¬ t.Running :=
  (Client.ended_spec (hS.life c (List.mem_of_getElem? hc)) (hS.ended cid c hc hover)).1 t ht

/-- A step of a client that is over. -/
theorem OneSession.over (hS : OneSession u name w n) (h : w.step a = some w')
    (hc : w.clients[cid]? = some c) (hset : w'.clients = w.clients.set cid c')
    (hover : cid + 1 < w.clients.length) {tid : Nat} (ha : a = .run cid tid) :
    OneSession u name w' n := by
  have hclosed := (Client.ended_spec (hS.life c (List.mem_of_getElem? hc))
    (hS.ended cid c hc hover)).2
  have hv : Unelected u w w' := by
    apply hS.toInv.unelected h
    -- a client that is over proposes nothing
    intro cid₁ tid₁ c₁ t₁ retries curr seed ha₁ hc₁ ht₁ hpc₁
    rw [ha] at ha₁
    cases ha₁
    rw [hc] at hc₁
    cases hc₁
    rcases hclosed t₁ (List.mem_of_getElem? ht₁) _ hpc₁ with heq | ⟨e, heq⟩
    · cases heq
    · cases heq
  refine ⟨hS.toCore.step h, fun _ _ => hS.ended_step h hset, fun _ _ => ?_⟩
  exact hS.last_rests hc hset hv fun hlast => by omega

/-- A client that has not won does not win while it proposes nothing. -/
theorem InSession.of_losing (hB' : Core u name w') (hc' : w'.clients[cid]? = some c') {tid : Nat}
    {t t' : Thread} {sh : Shared} (ht : c.threads[tid]? = some t)
    (heq : c' = { c with shared := sh, threads := c.threads.set tid t' })
    (hpc : PcStep u w.backend c.shared t.pc w'.backend t'.pc)
    (hmv : Moves name c t.pc w.backend sh t'.pc w'.backend)
    (hno : ∀ retries curr seed, t.pc ≠ .opener (.propose (.propose retries curr seed)))
    {t₀ : Thread} (ht₀ : t₀ ∈ c.threads) {pc₀ : OpenPc} (hpc₀ : t₀.pc = .opener pc₀)
    (hlost : ¬ pc₀.Won) (n : Nat) : InSession u w' c' n := by
  obtain ⟨i, hi⟩ := List.mem_iff_getElem?.mp ht₀
  by_cases hit : i = tid
  · -- the opening thread moves
    subst hit
    rw [hi] at ht
    cases ht
    rw [hpc₀] at hpc hmv hno
    obtain ⟨pc', hpc', -⟩ := hpc
    rw [hpc'] at hmv
    have hmem : t' ∈ c'.threads := by
      rw [heq]
      exact List.mem_of_getElem? (List.getElem?_set_self (lt_of_getElem?_eq_some hi))
    refine .of_lost hB' hc' hmem hpc' ?_ n
    intro hwon
    -- the opening thread won before, or the step is the proposal
    rcases hmv.wins.won hwon with hwon | ⟨retries, curr, seed, rfl⟩
    · exact hlost hwon
    · exact hno retries curr seed rfl
  · have hmem : t₀ ∈ c'.threads := by
      rw [heq]
      apply List.mem_of_getElem? (i := i)
      rw [List.getElem?_set_ne (Ne.symm hit)]
      exact hi
    exact .of_lost hB' hc' hmem hpc₀ hlost n

/-- The thread that proposes its client. -/
theorem OneSession.ran_propose (hS : OneSession u name w n) (hnul : '\x00' ∉ name.toList)
    (hB' : Core u name w') {tid : Nat} (h : w.step (.run cid tid) = some w')
    (hc : w.clients[cid]? = some c) (hc' : w'.clients[cid]? = some c') {t : Thread}
    (ht : c.threads[tid]? = some t) {retries seed : Nat} {curr : VersionedView}
    (hpc : t.pc = .opener (.propose (.propose retries curr seed)))
    (hseed : Accepts u w w' (curr.epoch + 1) seed → seed = n) : InSession u w' c' n := by
  have hlt := lt_of_getElem?_eq_some ht
  -- accepted, or too late
  cases hS.toInv.propose_step h hc ht hpc with
  | accepted lb t₁ hlb hepoch hviews hc₁ hpc₁ =>
    rw [hc'] at hc₁
    cases hc₁
    have hacc : Accepts u w w' (curr.epoch + 1) seed := by
      refine ⟨⟨cid, tid, h, c, t, retries, curr, hc, ht, hpc, rfl⟩, ?_, ?_⟩
      · rw [hepoch]
        unfold latestEpoch
        rw [hviews, List.length_append, List.length_singleton]
      · rw [hepoch]
        exact Nat.lt_succ_self _
    obtain rfl : seed = n := hseed hacc
    refine .elects hS.toCore hB' hnul hc hc' ht hpc rfl hpc₁ hlb hepoch hviews ?_
    rw [← hepoch]
    rfl
  | late t₁ hlate hb hc₁ hpc₁ =>
    rw [hc'] at hc₁
    cases hc₁
    have hmem : t₁ ∈ c.threads.set tid t₁ :=
      List.mem_of_getElem? (List.getElem?_set_self hlt)
    exact .of_lost hB' hc' hmem hpc₁ id n

/-- **A step of the last client** keeps its session, given what it does to the counter. -/
theorem OneSession.ran (hS : OneSession u name w n) (hnul : '\x00' ∉ name.toList)
    {tid : Nat} (h : w.step (.run cid tid) = some w') (hc : w.clients[cid]? = some c)
    (hset : w'.clients = w.clients.set cid c') (hlast : cid + 1 = w.clients.length)
    {t t' : Thread} {sh : Shared} (ht : c.threads[tid]? = some t)
    (heq : c' = { c with shared := sh, threads := c.threads.set tid t' })
    (hpc : PcStep u w.backend c.shared t.pc w'.backend t'.pc)
    (hmv : Moves name c t.pc w.backend sh t'.pc w'.backend)
    (hseqs : SeqMove u w.backend c.shared n sh n')
    (hholds : ∀ data opc, t'.pc = .op (.append data) opc → opc.InFlight → opc.Holds sh)
    (hseed : ∀ retries curr seed, t.pc = .opener (.propose (.propose retries curr seed)) →
      Accepts u w w' (curr.epoch + 1) seed → seed = n) : OneSession u name w' n' := by
  have hB' := hS.toCore.step h
  have hc' : w'.clients[cid]? = some c' := by
    rw [hset]
    exact List.getElem?_set_self (lt_of_getElem?_eq_some hc)
  have hsession := hS.last cid c hc hlast
  have hnext : InSession u w' c' n' := by
    -- the thread proposes its client, has won before, or has not
    by_cases hprop : ∃ retries curr seed, t.pc = .opener (.propose (.propose retries curr seed))
    · obtain ⟨retries, curr, seed, hop⟩ := hprop
      obtain rfl := hseqs.stays (hS.toCore.no_seqs hc (List.mem_of_getElem? ht) hop id)
      exact hS.ran_propose hnul hB' h hc hc' ht hop (hseed retries curr seed hop)
    · have hno : ∀ retries curr seed, t.pc ≠ .opener (.propose (.propose retries curr seed)) :=
        fun retries curr seed hop => hprop ⟨retries, curr, seed, hop⟩
      have hv : Unelected u w w' := by
        apply hS.toInv.unelected h
        intro cid₁ tid₁ c₁ t₁ retries curr seed ha₁ hc₁ ht₁
        cases ha₁
        rw [hc] at hc₁
        cases hc₁
        rw [ht] at ht₁
        cases ht₁
        exact hno retries curr seed
      by_cases hwon : ∀ t ∈ c.threads, ∀ pc, t.pc = .opener pc → pc.Won
      · exact hsession.ran hS.toCore hB' (hS.toInv.client_step h hc') hv hc hc' hwon ht heq hmv
          hseqs hholds
      · push Not at hwon
        obtain ⟨t₀, ht₀, pc₀, hpc₀, hlost⟩ := hwon
        exact .of_losing hB' hc' ht heq hpc hmv hno ht₀ hpc₀ hlost n'
  refine ⟨hB', fun _ _ => hS.ended_step h hset, ?_⟩
  -- the last client is the one that moved
  intro i d hd hi
  rw [hset, List.length_set, ← hlast] at hi
  obtain rfl : i = cid := Nat.succ.inj hi
  rw [hc'] at hd
  cases hd
  exact hnext

/-! ## The tail -/

/-- No operation runs on a client that is over, so the client of an operation is the last one. -/
theorem OneSession.running_last (hS : OneSession u name w n) (hc : w.clients[cid]? = some c) {t : Thread}
    (ht : t ∈ c.threads) (hr : t.Running) : cid + 1 = w.clients.length := by
  have hlt := lt_of_getElem?_eq_some hc
  by_contra hne
  have hover := hS.ended cid c hc (by omega)
  exact (Client.ended_spec (hS.life c (List.mem_of_getElem? hc)) hover).1 t ht hr

/-- The last step of a `CheckTail`: it returns what a counter of `n` shows. -/
structure ReadsTail (w : World) (cid tid n : Nat) (result : Ret Reply) (c : Client) (t : Thread)
    (v : VersionedView) (seq : Sequencer) : Prop where
  client : w.clients[cid]? = some c
  thread : c.threads[tid]? = some t
  reading : t.pc = .op .checkTail (.sequence v 0)
  found : c.shared.seqs[0]? = some seq
  counter : seq.position = n
  returned : result = .ok (.position seq.tail)

/-- A `CheckTail` returns the number of positions handed out, as its sequencer shows it. -/
theorem OneSession.checkTail (hS : OneSession u name w n) {tid : Nat}
    (h : w.step (.run cid tid) = some w') {t' : Thread} (ht' : w'.thread? cid tid = some t')
    {result : Ret Reply} (hpc' : t'.pc = .op .checkTail (.done result)) :
    ∃ c t v seq, ReadsTail w cid tid n result c t v seq := by
  obtain ⟨c, t, opc, sh, hc, ht, hpc, hflight, hmv⟩ := hS.toInv.run_done h ht' hpc'
  have hmem := List.mem_of_getElem? hc
  have htmem := List.mem_of_getElem? ht
  have hrunning : t.Running := ⟨.checkTail, opc, hpc, hflight⟩
  have hsession := hS.last cid c hc (hS.running_last hc htmem hrunning)
  have hne := hsession.running hS.toCore hmem htmem hrunning
  obtain ⟨cur, hcur, hseq⟩ := hsession.view hS.toCore hmem hne
  have hgives : ∀ lb, c.shared.backend = some lb →
      Gives w.backend c.shared (fun _ pc' => ∀ r, pc' = .done r →
        ∃ v seq, opc = .sequence v 0 ∧ c.shared.seqs[0]? = some seq ∧ r = .ok (.position seq.tail))
        (Request.checkTail.run c.options lb c.shared opc) := by
    intro lb _
    simp only [Request.run]
    cases opc with
    | start p pe =>
      simp only [tailOp, Shared.withView, hcur, hseq]
      intro r hr
      cases hr
    | sequence v i =>
      obtain rfl := hS.sequencers.reads c hmem t htmem _ v i hpc (Or.inr rfl)
      simp only [tailOp]
      split
      · trivial
      · next seq hfound =>
        intro r hr
        cases hr
        exact ⟨v, seq, rfl, hfound, rfl⟩
    | _ => trivial
  obtain ⟨v, seq, rfl, hfound, hres⟩ := hmv.gives_op hgives result rfl
  have hcount : seq.position = n := by
    rw [← hsession.counter hne]
    unfold Shared.counter
    rw [hfound]
  exact ⟨c, t, v, seq, hc, ht, hpc, hfound, hcount, hres⟩

theorem OneSession.init {options : Options} {host : Host}
    (h : World.init name u options host = some w) : OneSession u name w 0 := by
  have hB := Core.init h
  obtain ⟨blob, b, -, -, rfl⟩ := World.init_eq h
  refine ⟨hB, ?_, ?_⟩
  · intro i c _ hi
    exact absurd hi (by simp)
  · intro i c hc _
    obtain rfl := List.mem_singleton.mp (List.mem_of_getElem? hc)
    exact .of_lost hB hc (t := ⟨.opener (.uniqueId u.hoid u.pfx), 0, none, []⟩) List.mem_cons_self
      rfl id 0

end

end ZLog
