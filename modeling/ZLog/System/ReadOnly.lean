import ZLog.Client.Winning
import ZLog.System.Elections

/-!
# Read-only handles

`Log::OpenReadOnly` builds the same object as `Log::Open`, in the same way: it proposes its client
as the sequencer, and the handle appends, fills and trims.  So every call that returns a handle has
replaced the stored sequencer configuration.

## Main results

- `openReadOnly_changes_log`: opening a log read-only changes the stored configuration.
- `openReadOnly_appends`: a run in which a read-only handle takes the sequencer away and appends.
-/

namespace ZLog

/-- `Log::OpenReadOnly` of a new client: `build_log_impl<LogImpl>`, as in `Log::Open`. -/
def Action.openReadOnly (options : Options) (host : Host) : Action := .open options host

section

variable {u : Uuid} {name : String} {w w' w₀ w₁ : World} {c c' : Client} {a : Action} {cid : Nat}

/-- Some stored view has a configuration that was proposed after epoch `e`. -/
def ElectedSince (u : Uuid) (b : Store) (e : Nat) : Prop :=
  ∃ e' v cfg, ViewAt (viewsOf u b) e' v ∧ v.seqConfig = some cfg ∧ e < cfg.epoch

theorem ElectedSince.mono {b b' : Store} {e : Nat} (h : ElectedSince u b e) (hg : Grows u b b') :
    ElectedSince u b' e := by
  obtain ⟨e', v, cfg, hv, hcfg, hlt⟩ := h
  exact ⟨e', v, cfg, hv.mono hg.views, hcfg, hlt⟩

/-- Winning an election takes an accepted proposal. -/
theorem Inv.elected_of_won (hI : Inv u name w) (h : w.step a = some w')
    (hc' : w'.clients[cid]? = some c') (hwon : c'.Won) :
    (∃ c, w.clients[cid]? = some c ∧ c.Won) ∨
      ElectedSince u w'.backend (latestEpoch u w.backend) := by
  obtain ⟨t', ht', pc', hpc', hw'⟩ := hwon
  cases hI.client_step h hc' with
  | same hc => exact Or.inl ⟨c', hc, t', ht', pc', hpc', hw'⟩
  | fresh options host hn heq hb =>
    subst heq
    simp only [Client.new, Client.newThreads, List.mem_cons, List.not_mem_nil, or_false] at ht'
    rcases ht' with rfl | rfl | rfl | rfl
    · cases hpc'
      exact hw'.elim
    · cases hpc'
    · cases hpc'
    · cases hpc'
  | invoked c r hc ha hopen heq hb =>
    subst heq
    rcases List.mem_append.mp ht' with ht' | ht'
    · exact Or.inl ⟨c, hc, t', ht', pc', hpc', hw'⟩
    · rw [List.mem_singleton.mp ht'] at hpc'
      cases hpc'
  | closing c hc heq hb =>
    subst heq
    obtain ⟨t, ht, rfl⟩ := List.mem_map.mp ht'
    by_cases hopened : t.pc = .opener .opened
    · exact Or.inl ⟨c, hc, t, ht, .opened, hopened, trivial⟩
    · rw [if_neg hopened] at hpc'
      exact Or.inl ⟨c, hc, t, ht, pc', hpc', hw'⟩
  | died c hc heq hb =>
    subst heq
    exact Or.inl ⟨c, hc, t', ht', pc', hpc', hw'⟩
  | ran c tid t sh pc hc ht ha heq hk hstep hmv =>
    subst heq
    rcases List.mem_or_eq_of_mem_set ht' with hin | rfl
    · exact Or.inl ⟨c, hc, t', hin, pc', hpc', hw'⟩
    · have hpc' : pc = .opener pc' := hpc'
      subst hpc'
      obtain ⟨opc, htpc⟩ := hstep.opener
      rw [htpc] at hmv
      have hwins : pc'.Won → opc.Won ∨
          ∃ retries curr seed, opc = .propose (.propose retries curr seed) := by
        refine hmv.lands (P := fun _ x => ∀ y, x = .opener y → y.Won → opc.Won ∨
          ∃ retries curr seed, opc = .propose (.propose retries curr seed)) (Lands.map ?_) pc' rfl
        refine (openEntry_wins opc).imp fun _ s hs y heq => ?_
        cases heq
        exact hs
      rcases hwins hw' with hwon | ⟨retries, curr, seed, rfl⟩
      · exact Or.inl ⟨c, hc, t, List.mem_of_getElem? ht, opc, htpc, hwon⟩
      · right
        subst ha
        cases hI.propose_step h hc ht htpc with
        | accepted lb x hlb heq hviews hx hxpc =>
          refine ⟨_, _, ⟨curr.epoch + 1, cStr lb.token, seed⟩, hviews ▸ viewAt_append_last _ _, rfl,
            ?_⟩
          show latestEpoch u w.backend < curr.epoch + 1
          omega
        | late x hlt hb hx hxpc =>
          -- a late proposal sends the thread to wait for a newer view
          rw [hx] at hc'
          have hset := congrArg (fun d => d.threads[tid]?) (Option.some.inj hc')
          simp only [List.getElem?_set_self (lt_of_getElem?_eq_some ht), Option.some.injEq] at hset
          subst hset
          rw [show (t.goto w.clock (.opener pc') _).pc = .opener pc' from rfl] at hxpc
          cases hxpc
          exact hw'.elim

/-- The configuration of the newest stored view. -/
def storedConfig (u : Uuid) (b : Store) : Option SequencerConfig :=
  (viewsOf u b).getLast?.bind View.seqConfig

/-- After an election, the stored configuration is newer than the epoch before it. -/
theorem HistoryOk.storedConfig {b : Store} {e : Nat} (h : HistoryOk (viewsOf u b))
    (hel : ElectedSince u b e) : ∃ cfg, storedConfig u b = some cfg ∧ e < cfg.epoch := by
  obtain ⟨e', v, cfg, hv, hcfg, hlt⟩ := hel
  have hlast := List.getLast?_eq_getElem? (l := viewsOf u b)
  have hpos : 0 < (viewsOf u b).length := List.length_pos_of_ne_nil h.ne_nil
  rw [List.getElem?_eq_getElem (by omega)] at hlast
  have hv' : ViewAt (viewsOf u b) (viewsOf u b).length _ :=
    ⟨hpos, List.getElem?_eq_getElem (by omega)⟩
  obtain ⟨cfg', hcfg', hle, -⟩ := h.config_mono hv hv' hv.le_length hcfg
  refine ⟨cfg', ?_, lt_of_lt_of_le hlt hle⟩
  rw [ZLog.storedConfig, hlast]
  exact hcfg'

/-- **Opening a log read-only changes it**: once `OpenReadOnly` has returned a handle, the stored
    sequencer configuration is never again the one from before the call. -/
theorem openReadOnly_changes_log {options options' : Options} {host host' : Host} {w₂ : World}
    (h₀ : World.init name u options host = some w₀) (h : Lib.Reaches World.step w₀ w)
    (hopen : w.step (.openReadOnly options' host') = some w₁) (h₁ : Lib.Reaches World.step w₁ w₂)
    (hc : w₂.clients[w.clients.length]? = some c) (hret : c.isOpen = true)
    (h₂ : Lib.Reaches World.step w₂ w') :
    storedConfig u w'.backend ≠ storedConfig u w.backend := by
  have hI := (Inv.init h₀).of_reaches h
  have hI₁ := (hI.step hopen).1
  -- the backend is not touched by the call itself, and the new client has won nothing
  have hsame : w₁.backend = w.backend ∧ ∀ c, w₁.clients[w.clients.length]? = some c →
      ¬ c.Won := by
    cases hopen
    refine ⟨rfl, fun c hc ⟨t, ht, pc, hpc, hwon⟩ => ?_⟩
    rw [List.getElem?_concat_length] at hc
    cases hc
    simp only [Client.new, Client.newThreads, List.mem_cons, List.not_mem_nil, or_false] at ht
    rcases ht with rfl | rfl | rfl | rfl
    · cases hpc
      exact hwon
    · cases hpc
    · cases hpc
    · cases hpc
  have hstart : ∃ c, w₁.clients[w.clients.length]? = some c := by
    cases hopen
    exact ⟨_, List.getElem?_concat_length⟩
  -- whoever has won was elected after the call
  have hwon : ∀ c, w₂.clients[w.clients.length]? = some c → c.Won →
      ElectedSince u w₂.backend (latestEpoch u w.backend) := by
    refine h₁.invariant_reaches (I := fun x => ∀ c, x.clients[w.clients.length]? = some c →
      c.Won → ElectedSince u x.backend (latestEpoch u w.backend)) ?_
      (fun c hc hwon => absurd hwon (hsame.2 c hc))
    rintro x a x' hx hJ - hs c hc hwon
    have hIx := hI₁.of_reaches hx
    have hgrow : Grows u x.backend x'.backend := (hIx.step hs).2.grows
    rcases hIx.elected_of_won hs hc hwon with ⟨c₀, hc₀, hwon₀⟩ | ⟨e', v, cfg, hv, hcfg, hlt⟩
    · exact (hJ c₀ hc₀ hwon₀).mono hgrow
    · refine ⟨e', v, cfg, hv, hcfg, lt_of_le_of_lt ?_ hlt⟩
      have hg := (hI₁.kept hx).grows.views.length_le
      rw [hsame.1] at hg
      exact hg
  have hel : ElectedSince u w'.backend (latestEpoch u w.backend) := by
    refine (hwon c hc ?_).mono ((hI₁.of_reaches h₁).kept h₂).grows
    simp only [Client.isOpen, Bool.and_eq_true, List.any_eq_true, decide_eq_true_eq] at hret
    obtain ⟨-, t, ht, hpc⟩ := hret
    exact ⟨t, ht, .opened, hpc, trivial⟩
  have hI' := (hI₁.of_reaches h₁).of_reaches h₂
  obtain ⟨cfg, hcfg, hlt⟩ := hI'.log.history.storedConfig hel
  intro heq
  rw [heq] at hcfg
  obtain ⟨v, hv, hvc⟩ := Option.bind_eq_some_iff.mp hcfg
  have hat : ViewAt (viewsOf u w.backend) (latestEpoch u w.backend) v := by
    rw [List.getLast?_eq_getElem?] at hv
    exact ⟨List.length_pos_of_ne_nil hI.log.history.ne_nil, hv⟩
  have hle := (hI.log.history.config _ v cfg hat hvc).2
  omega

end

/-- A second client opens the small log read-only. -/
def Sample.openedReadOnly : List Action :=
  steps 1 0 11 ++ steps 1 1 5 ++ steps 1 0 1

/-- The small log before and after a second client opens it read-only, and after some further
    actions. -/
def Sample.readOnly (actions : List Action) : Option (World × World × World) :=
  (world opened).bind fun w =>
    (w.step (.openReadOnly options host)).bind fun w₁ =>
      (Lib.exec World.step w₁ openedReadOnly).bind fun w₂ =>
        (Lib.exec World.step w₂ actions).map fun w' => (w, w₂, w')

theorem Sample.readOnly_cases {actions : List Action} {w w₂ w' : World}
    (h : readOnly actions = some (w, w₂, w')) :
    ∃ w₀ w₁, World.init "log" uuid options host = some w₀ ∧ Lib.Reaches World.step w₀ w ∧
      w.step (.openReadOnly options host) = some w₁ ∧ Lib.Reaches World.step w₁ w₂ ∧
      Lib.Reaches World.step w₂ w' := by
  obtain ⟨x, hx, h⟩ := Option.bind_eq_some_iff.mp h
  obtain ⟨w₁, h₁, h⟩ := Option.bind_eq_some_iff.mp h
  obtain ⟨x₂, h₂, h⟩ := Option.bind_eq_some_iff.mp h
  obtain ⟨x', h', h⟩ := Option.map_eq_some_iff.mp h
  cases h
  obtain ⟨w₀, h₀, hr⟩ := reaches hx
  exact ⟨w₀, w₁, h₀, hr, h₁, Lib.run_of_exec _ h₂, Lib.run_of_exec _ h'⟩

set_option maxRecDepth 100000 in
/-- In the small log, the second client has taken the sequencer away from the first. -/
theorem openReadOnly_changes_log_sample :
    ∃ w w₂ w', Sample.readOnly [] = some (w, w₂, w') ∧
      storedConfig Sample.uuid w'.backend ≠ storedConfig Sample.uuid w.backend := by
  have hrun : ((Sample.readOnly []).bind fun ws => ws.2.1.clients[ws.1.clients.length]?.map
      Client.isOpen) = some true := by decide +kernel
  obtain ⟨⟨w, w₂, w'⟩, h, ho⟩ := Option.bind_eq_some_iff.mp hrun
  obtain ⟨c, hc, hret⟩ := Option.map_eq_some_iff.mp ho
  obtain ⟨w₀, w₁, h₀, hr, hopen, h₁, h₂⟩ := Sample.readOnly_cases h
  exact ⟨w, w₂, w', h, openReadOnly_changes_log h₀ hr hopen h₁ hc hret h₂⟩

set_option maxRecDepth 100000 in
/-- **A read-only handle appends**: opening the log read-only replaces the sequencer of the first
    client, and an append on the handle succeeds and writes position 0. -/
theorem openReadOnly_appends :
    ∃ w₀ w w₁ w₂ w' t, World.init "log" Sample.uuid Sample.options Sample.host = some w₀ ∧
      Lib.Reaches World.step w₀ w ∧ w.step (.openReadOnly Sample.options Sample.host) = some w₁ ∧
      Lib.Reaches World.step w₁ w₂ ∧ Lib.Reaches World.step w₂ w' ∧
      (storedConfig Sample.uuid w.backend).map SequencerConfig.epoch = some 2 ∧
      (storedConfig Sample.uuid w₂.backend).map SequencerConfig.epoch = some 3 ∧
      w'.thread? 1 4 = some t ∧ t.pc.result = some (.ok (.position 0)) ∧
      w.backend.slotAt (dataOid Sample.uuid 0 0) 0 = .unwritten ∧
      w'.backend.slotAt (dataOid Sample.uuid 0 0) 0 = .written "a" := by
  have hrun : ((Sample.readOnly (.invoke 1 (.append "a") :: Sample.steps 1 4 4)).bind fun ws =>
      (ws.2.2.thread? 1 4).map fun t =>
        (t.pc.result, (storedConfig Sample.uuid ws.1.backend).map SequencerConfig.epoch,
          (storedConfig Sample.uuid ws.2.1.backend).map SequencerConfig.epoch,
          ws.1.backend.slotAt (dataOid Sample.uuid 0 0) 0,
          ws.2.2.backend.slotAt (dataOid Sample.uuid 0 0) 0)) =
      some (some (.ok (.position 0)), some 2, some 3, .unwritten, .written "a") := by decide +kernel
  obtain ⟨⟨w, w₂, w'⟩, h, ho⟩ := Option.bind_eq_some_iff.mp hrun
  obtain ⟨t, ht, heq⟩ := Option.map_eq_some_iff.mp ho
  simp only [Prod.mk.injEq] at heq
  obtain ⟨hres, hcfg, hcfg₂, hslot, hslot'⟩ := heq
  obtain ⟨w₀, w₁, h₀, hr, hopen, h₁, h₂⟩ := Sample.readOnly_cases h
  exact ⟨w₀, w, w₁, w₂, w', t, h₀, hr, hopen, h₁, h₂, hcfg, hcfg₂, ht, hres, hslot, hslot'⟩

end ZLog
