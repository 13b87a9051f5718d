import ZLog.System.Solo

/-!
# Opening a log can be finished

A thread that opens the log reads the latest view, proposes its client as the sequencer, and waits
for the view that has it.  On its own with the refresh thread of its client it gets through: the scan
of the stripes is bounded, the view that it waits for is stored already, and a proposal that came too
late is repeated with one retry less.  What may end the retries is the error branch of
`propose_sequencer`.

## Main results

- `Opening.returns`: from every state of an undisturbed run, `Open` can return, or another client is
  faster.
-/

namespace ZLog

section

variable {u : Uuid} {name : String} {w w' w₀ : World} {a : Action}

/-- What holds along every undisturbed run. -/
structure Opening (u : Uuid) (name : String) (w : World) : Prop extends Core u name w where
  fetches : ∀ (cid : Nat) (c : Client), w.clients[cid]? = some c → c.Fetches
  opens : ∀ (cid : Nat) (c : Client), w.clients[cid]? = some c → c.Opens
  tended : ∀ c ∈ w.clients, Tended c

/-- A step that nobody disturbs keeps the openings. -/
theorem Opening.step (h : Opening u name w) (hok : Undisturbed w a) (hs : w.step a = some w') :
    Opening u name w' := by
  have hwatched : Watched u name w := ⟨h.toInv, h.waits, h.fetches⟩
  refine ⟨h.toCore.step hs, (hwatched.step hok.1 hs).fetches, ?_, ?_⟩
  · intro cid c' hc'
    exact Client.Opens.step h.toGood h.sequencers hwatched hok h.opens hs hc'
  · intro c' hmem'
    obtain ⟨cid, hc'⟩ := List.mem_iff_getElem?.mp hmem'
    exact Tended.step (fun c hc => h.tended c (List.mem_of_getElem? hc))
      (h.toInv.client_step hs hc')

/-- They hold at the start. -/
theorem Opening.init {options : Options} {host : Host}
    (h : World.init name u options host = some w) : Opening u name w := by
  refine ⟨.init h, (Watched.init h).fetches, ?_, ?_⟩
  · obtain ⟨blob, b, -, -, rfl⟩ := World.init_eq h
    intro cid c hc
    rw [List.mem_singleton.mp (List.mem_of_getElem? hc)]
    exact .new options host true 0 trivial
  · obtain ⟨blob, b, -, -, rfl⟩ := World.init_eq h
    intro c hc
    rw [List.mem_singleton.mp hc]
    exact .new options host true _ 0

/-- And along a run that nobody disturbs. -/
theorem Opening.of_run {options : Options} {host : Host}
    (h₀ : World.init name u options host = some w₀) (h : Lib.Run World.step Undisturbed w₀ w) :
    Opening u name w :=
  h.invariant (fun _ _ _ h hok hs => h.step hok hs) (.init h₀)

end

/-! ## The scene of an opening thread -/

/-- A thread that opens the log, once it has a backend. -/
structure Opener where
  setting : Setting
  lb : LogBackend

/-- The fetched views are installed in order. -/
def Scene.InOrder (d : Scene OpenPc) : Turn → Prop
  | .caller => ∀ e ∈ (Pc.opener d.pc).fetched?, ∀ e' ∈ (Pc.refresh d.refresh).fetched?, e ≤ e'
  | .refresh => ∀ e ∈ (Pc.refresh d.refresh).fetched?, ∀ e' ∈ (Pc.opener d.pc).fetched?, e ≤ e'

/-- The step is in order, and the thread does not give up. -/
def Scene.Undisturbed (d : Scene OpenPc) (turn : Turn) : Prop :=
  d.InOrder turn ∧ (turn = .caller → ¬ d.pc.Beaten d.shared)

/-- `Open` has returned, or another client was faster. -/
def Scene.Ends (d : Scene OpenPc) : Prop := d.pc.Returned ∨ d.pc.Beaten d.shared

namespace Opener

/-- The steps of the thread but the one that builds the view reader. -/
def run (s : Opener) (sh : Shared) : OpenPc → Option (Move OpenPc)
  | .construct .. => none
  | pc => openEntry s.setting.name s.setting.host.text s.setting.options s.setting.created sh pc

/-- The opener runs `build_log_impl`. -/
theorem run_eq {s : Opener} {sh : Shared} {pc : OpenPc} {m : Move OpenPc}
    (h : s.run sh pc = some m) : openEntry s.setting.name s.setting.host.text s.setting.options
      s.setting.created sh pc = some m := by
  cases pc with
  | construct => cases h
  | _ => exact h

/-- The opening thread as a caller: what its moves keep of the memory. -/
def caller (s : Opener) : Caller OpenPc where
  setting := s.setting
  lb := s.lb
  run := s.run
  thread := .opener
  own _ _ := Pc.noConfusion
  keeps {sh sh' pc pc'} hm := by
    rcases openEntry_memory (run_eq hm) with hq | ⟨lb, epoch, blob, -, -, hi⟩ |
      ⟨hoid, pfx, id, rfl, -, -⟩ | ⟨-, -, rfl⟩
    · exact ⟨hq.backend, hq.aborted⟩
    · obtain ⟨view, seqs, seq, -, -, rfl⟩ := hi.view
      exact ⟨rfl, rfl⟩
    · cases hm
    · exact ⟨rfl, rfl⟩
  moves {c pc m} hset hlb hm := by
    have hhost : c.host = s.setting.host := congrArg Setting.host hset
    have hoptions : c.options = s.setting.options := congrArg Setting.options hset
    have hcreated : c.created = s.setting.created := congrArg Setting.created hset
    simp only [Pc.move, hhost, hoptions, hcreated, run_eq hm, Option.map_some]

/-- What the opener does as a caller. -/
@[simp] theorem caller_run (s : Opener) : s.caller.run = s.run := rfl

/-- The handle it runs with. -/
@[simp] theorem caller_lb (s : Opener) : s.caller.lb = s.lb := rfl

/-- A scene that an undisturbed run shows. -/
def Live (s : Opener) (u : Uuid) (name : String) (d : Scene OpenPc) : Prop :=
  ∃ w cid, Opening u name w ∧ s.caller.Shows cid 0 w d

/-- Some undisturbed steps of the two threads reach a scene with the property. -/
def Can (s : Opener) (P : Scene OpenPc → Prop) (d : Scene OpenPc) : Prop :=
  Lib.Can s.caller.step Scene.Undisturbed P d

/-- What a live scene is like before `Open` returns. -/
structure Facts (s : Opener) (u : Uuid) (name : String) (d : Scene OpenPc) : Prop
    extends s.caller.Knows u name d where
  fresh : d.shared.Fresh
  running : d.refresh ≠ .exited
  op : OpenOk u d.backend d.pc
  viewed : d.pc.Viewed → d.shared.view ≠ none
  sound : d.pc ≠ .propose .crash
  fetched : ∀ e ∈ (Pc.opener d.pc).fetched?, ∀ curr, d.shared.view = some curr → curr.epoch ≤ e
  refreshed : ∀ e ∈ (Pc.refresh d.refresh).fetched?, ∀ curr, d.shared.view = some curr →
    curr.epoch ≤ e

section

variable {s : Opener} {u : Uuid} {name : String} {w : World} {cid : Nat} {d d' : Scene OpenPc}
  {turn : Turn} {P Q : Scene OpenPc → Prop}

/-- The undisturbed steps of a scene are such steps of the world. -/
theorem undisturbed_of_shows (hO : Opening u name w) (h : s.caller.Shows cid 0 w d)
    (hok : d.Undisturbed turn) : Undisturbed w (.run cid (turn.thread 0)) := by
  obtain ⟨-, -, c, hc, hshown⟩ := h
  obtain ⟨t₀, ht₀, hpc₀⟩ := hshown.caller
  obtain ⟨t₁, ht₁, hpc₁⟩ := hshown.refresh
  have hpc₀ : t₀.pc = .opener d.pc := hpc₀
  have hcmem := List.mem_of_getElem? hc
  -- no other thread of the client fetches views
  have hthreads : ∀ t ∈ c.threads, t.pc.fetched? = none ∨ t = t₀ ∨ t = t₁ := by
    intro t ht
    obtain ⟨i, hi⟩ := List.mem_iff_getElem?.mp ht
    cases hpc : t.pc with
    | opener pc =>
      obtain rfl := (hO.life c hcmem).others i t pc hi hpc
      exact Or.inr (Or.inl (Option.some.inj (hi.symm.trans ht₀)))
    | refresh pc =>
      obtain rfl := (hO.tended c hcmem).alone i t pc hi hpc
      exact Or.inr (Or.inr (Option.some.inj (hi.symm.trans ht₁)))
    | _ => exact Or.inl rfl
  refine ⟨?_, ?_⟩
  · intro c' hc' t ht e he t' ht' e' he'
    cases hc.symm.trans hc'
    rcases hthreads t' ht' with hnone | rfl | rfl
    · rw [hnone] at he'
      cases he'
    · cases turn with
      | caller =>
        cases ht₀.symm.trans ht
        rw [he] at he'
        cases he'
        exact Nat.le_refl _
      | refresh =>
        cases ht₁.symm.trans ht
        rw [hpc₁] at he
        rw [hpc₀] at he'
        exact hok.1 e he e' he'
    · cases turn with
      | caller =>
        cases ht₀.symm.trans ht
        rw [hpc₀] at he
        rw [hpc₁] at he'
        exact hok.1 e he e' he'
      | refresh =>
        cases ht₁.symm.trans ht
        rw [he] at he'
        cases he'
        exact Nat.le_refl _
  · intro c' hc' t ht pc hpc
    cases hc.symm.trans hc'
    cases turn with
    | caller =>
      cases ht₀.symm.trans ht
      rw [hpc₀] at hpc
      cases hpc
      rw [hshown.shared]
      exact hok.2 rfl
    | refresh =>
      cases ht₁.symm.trans ht
      rw [hpc₁] at hpc
      cases hpc

/-- A step of the opener or of the refresh thread keeps the scene alive. -/
theorem Live.step (h : s.Live u name d) (hok : d.Undisturbed turn)
    (hs : s.caller.step d turn = some d') : s.Live u name d' := by
  obtain ⟨w, cid, hO, hshows⟩ := h
  obtain ⟨w', hstep, hshows'⟩ := hshows.step hs
  exact ⟨w', cid, hO.step (undisturbed_of_shows hO hshows hok) hstep, hshows'⟩

/-- What is known in a live scene. -/
theorem Live.knows (h : s.Live u name d) : s.caller.Knows u name d := by
  obtain ⟨w, cid, hO, -, hb, c, hc, hshown⟩ := h
  obtain ⟨t, ht, hpc⟩ := hshown.refresh
  have hcmem := List.mem_of_getElem? hc
  have hclient := hO.clients c hcmem
  have hrefresh := hclient.threads t (List.mem_of_getElem? ht)
  rw [hpc] at hrefresh
  refine ⟨hb ▸ hO.log, hb ▸ hshown.shared ▸ hclient.shared,
    hb ▸ hshown.shared ▸ hO.sequencers.seqs c hcmem, hshown.handle, ?_, hb ▸ hrefresh⟩
  refine hshown.shared ▸ (hO.tended c hcmem).started ?_
  rw [hshown.shared, hshown.handle]
  simp

/-- What a live scene sustains while the refresh thread runs alone. -/
theorem sustains (s : Opener) (u : Uuid) (name : String) :
    s.caller.Sustains u name Scene.Undisturbed (s.Live u name) where
  step h hok hs := h.step hok hs
  knows h := h.knows

/-- What the opener can rely on while it builds the handle. -/
theorem Live.facts (h : s.Live u name d) (hbuilding : d.pc.Building) : s.Facts u name d := by
  -- the world that the scene is a part of, and the two threads in it
  have hknows := h.knows
  obtain ⟨w, cid, hO, -, hb, c, hc, hshown⟩ := h
  obtain ⟨t, ht, hpc⟩ := hshown.caller
  obtain ⟨t', ht', hpc'⟩ := hshown.refresh
  have hpc : t.pc = .opener d.pc := hpc
  have hcmem := List.mem_of_getElem? hc
  have htmem := List.mem_of_getElem? ht
  have htmem' := List.mem_of_getElem? ht'
  have hshared := hshown.shared
  have hstage := (hO.opens cid c hc).stage t htmem d.pc hpc
  obtain ⟨hfresh, hstarting⟩ := hstage.building hbuilding
  have hop := (hO.clients c hcmem).threads t htmem
  rw [hpc] at hop
  have hrunning := hstarting t' htmem'
  rw [hpc'] at hrunning
  have hfetches := hO.fetches cid c hc
  rw [hshared] at hfresh
  refine ⟨hknows, hfresh, hrunning, hb ▸ hop, hshared ▸ hstage.viewed, hstage.sound.2, ?_, ?_⟩
  · intro e he curr hcurr
    exact hfetches t htmem e (hpc ▸ he) curr (hshared ▸ hcurr)
  · intro e he curr hcurr
    exact hfetches t' htmem' e (hpc' ▸ he) curr (hshared ▸ hcurr)

/-- The refresh thread holds no view that is older than the current one. -/
theorem Facts.survives (h : s.Facts u name d) : ¬ Dies d.shared (.refresh d.refresh) := by
  intro hdies
  cases hdies with
  | overtaken he hcurr hlt => exact absurd (h.refreshed _ he _ hcurr) (Nat.not_le_of_lt hlt)

/-! ## Steps while the refresh thread rests -/

/-- A live scene in which the refresh thread is between two passes. -/
structure Ready (s : Opener) (u : Uuid) (name : String) (d : Scene OpenPc) : Prop where
  live : s.Live u name d
  idle : d.refresh = .idle

/-- `Open` can return, or another client is faster. -/
def Returns (s : Opener) (d : Scene OpenPc) : Prop := s.Can Scene.Ends d

/-- With nothing fetched, a step of the opener disturbs nobody. -/
theorem Ready.undisturbed (h : s.Ready u name d) (hbeaten : ¬ d.pc.Beaten d.shared) :
    d.Undisturbed .caller := by
  refine ⟨?_, fun _ => hbeaten⟩
  intro e _ e' he'
  rw [h.idle] at he'
  cases he'

/-- After the first installation there is a view. -/
theorem Ready.view (h : s.Ready u name d) (hviewed : d.pc.Viewed) :
    ∃ v, d.shared.view = some v :=
  Option.ne_none_iff_exists'.mp ((h.live.facts hviewed.building).viewed hviewed)

/-- One access of the opening thread to the memory. -/
theorem Ready.access (h : s.Ready u name d) {sh : Shared} {pc : OpenPc}
    (hm : s.run d.shared d.pc = some (.memory sh pc)) (hbeaten : ¬ d.pc.Beaten d.shared)
    (hP : s.Ready u name { d with shared := sh, pc := pc } →
      s.Can P { d with shared := sh, pc := pc }) : s.Can P d := by
  have hs : s.caller.step d .caller = some { d with shared := sh, pc := pc } := by
    simp only [Caller.step, caller_run, hm]
  have hok := h.undisturbed hbeaten
  exact .next hok hs (hP ⟨h.live.step hok hs, h.idle⟩)

/-- One backend call of the opening thread. -/
theorem Ready.call (h : s.Ready u name d) {α : Type} {call : Call Fbs.View α} {next : α → OpenPc}
    {r : α} {b : Store} (hm : s.run d.shared d.pc = some (.backend call next))
    (hexec : d.backend.exec call = (r, b)) (hbeaten : ¬ d.pc.Beaten d.shared)
    (hP : s.Ready u name { d with backend := b, pc := next r } →
      s.Can P { d with backend := b, pc := next r }) : s.Can P d := by
  have hs : s.caller.step d .caller = some { d with backend := b, pc := next r } := by
    simp only [Caller.step, caller_run, hm, hexec]
  have hok := h.undisturbed hbeaten
  exact .next hok hs (hP ⟨h.live.step hok hs, h.idle⟩)

/-- The refresh thread ends the pass that it is in, unless the opening thread is about to install a
    view. -/
theorem Live.rests (h : s.Live u name d) (hbuilding : d.pc.Building)
    (hfetched : (Pc.opener d.pc).fetched? = none) :
    s.Can (fun d' => s.Ready u name d' ∧ d'.pc = d.pc) d := by
  have hfacts := h.facts hbuilding
  have hok : ∀ d₁, s.Live u name d₁ → d₁.pc = d.pc → d₁.Undisturbed .refresh := by
    intro d₁ _ hpc₁
    refine ⟨?_, by rintro ⟨⟩⟩
    intro e _ e' he'
    rw [hpc₁, hfetched] at he'
    cases he'
  obtain ⟨d', hrun, hidle, hpc, -⟩ := hfacts.rests hfacts.running hfacts.survives
  obtain ⟨hrun', h'⟩ := (s.sustains u name).refreshes h hrun hok
  exact ⟨d', hrun', ⟨h', hidle⟩, hpc⟩

/-! ## Behind the proposal -/

/-- Where `build_log_impl` goes on after `propose_sequencer`. -/
def proposed (s : Opener) : Ret Unit → OpenPc
  | .ok () =>
    if s.setting.options.initStripeOnCreate && s.setting.created then .checkStripes else .opened
  | .error _ => .crash

/-- While it proposes, the opener runs `propose_sequencer`. -/
theorem run_propose {sh : Shared} (hlb : sh.backend = some s.lb) (pc : ProposePc) :
    s.run sh (.propose pc) = Move.inside .propose s.proposed (proposeSequencer s.lb sh pc) := by
  simp only [run, openEntry, hlb]
  rfl

/-- The same in a scene. -/
theorem Ready.propose_run (h : s.Ready u name d) {pc : ProposePc} (hpc : d.pc = .propose pc) :
    s.run d.shared d.pc = Move.inside .propose s.proposed (proposeSequencer s.lb d.shared pc) := by
  rw [hpc]
  exact run_propose h.live.knows.handle pc

/-- The log is open. -/
theorem returns_opened (hpc : d.pc = .opened) : s.Returns d := by
  refine .here (Or.inl ?_)
  rw [hpc]
  trivial

/-- A control state outside `propose_sequencer` gives nothing up. -/
theorem not_beaten {pc : OpenPc} {sh : Shared} (hpc : pc.proposing? = none) : ¬ pc.Beaten sh := by
  rintro ⟨p, hp, -⟩
  rw [hpc] at hp
  cases hp

/-- Inside `propose_sequencer` only the look at the newer view may give up. -/
theorem not_beaten_propose {p : ProposePc} {sh : Shared} (hp : ∀ retries curr, p ≠ .check retries curr) :
    ¬ (OpenPc.propose p).Beaten sh := by
  rintro ⟨p', hp', hbeaten⟩
  cases hp'
  cases p with
  | check retries curr => exact hp retries curr rfl
  | _ => exact hbeaten

/-- The last step. -/
theorem Ready.returns_initStripe (h : s.Ready u name d) (hpc : d.pc = .initStripe) :
    s.Returns d := by
  have hm : s.run d.shared d.pc =
      some (.memory { d.shared with stripeInitPos := d.shared.stripeInitPos ++ [0] } .opened) := by
    rw [hpc]
    rfl
  exact h.access hm (not_beaten (by rw [hpc]; rfl)) fun _ => returns_opened rfl

/-- With the view there, the opening returns. -/
theorem Ready.returns_checkStripes (h : s.Ready u name d) (hpc : d.pc = .checkStripes) :
    s.Returns d := by
  obtain ⟨v, hv⟩ := h.view (by rw [hpc]; trivial)
  have hm : s.run d.shared d.pc = some (.memory d.shared
      (if v.objectMap.empty then .opened else .initStripe)) := by
    rw [hpc]
    simp only [run, openEntry, Shared.withView, hv]
  refine h.access hm (not_beaten (by rw [hpc]; rfl)) fun h₁ => ?_
  cases hempty : v.objectMap.empty with
  | true =>
    simp only [if_true]
    exact returns_opened rfl
  | false =>
    simp only [hempty] at h₁ ⊢
    exact h₁.returns_initStripe rfl

/-- A proposal that was accepted leads to the end. -/
theorem Ready.returns_proposed (h : s.Ready u name d) (hpc : d.pc = s.proposed (.ok ())) :
    s.Returns d := by
  simp only [proposed] at hpc
  split at hpc
  · exact h.returns_checkStripes hpc
  · exact returns_opened hpc

/-! ## Proposing -/

/-- With fewer retries, `Open` can return from the top of the loop in `propose_sequencer`. -/
def Restarts (s : Opener) (u : Uuid) (name : String) (retries : Nat) : Prop :=
  ∀ d, s.Ready u name d → ∀ r < retries, d.pc = .propose (.start r) → s.Returns d

variable {retries : Nat} {curr : VersionedView} {wait : WaitPc}

/-- The waits in `propose_sequencer` end. -/
theorem Ready.waited (h : s.Ready u name d) {K : WaitPc → ProposePc} {next : OpenPc}
    (hK : s.caller.Waits (fun wait => .propose (K wait)) next) (hpc : d.pc = .propose (K wait))
    (hcheck : ∀ wait retries curr, K wait ≠ .check retries curr)
    (hnewer : wait.epoch < latestEpoch u d.backend) :
    s.Can (fun d' => s.Ready u name d' ∧ d'.pc = next) d := by
  -- the refresh thread brings the newer view
  have hends := hK.ends (s.sustains u name) h.live h.idle hpc hnewer ?_ ?_
  · refine hends.imp ?_
    rintro d' ⟨hlive, hidle, hpc', -, -⟩
    exact ⟨⟨hlive, hidle⟩, hpc'⟩
  · intro d₁ wait₁ h₁ hpc₁
    exact (h₁.facts (by rw [hpc₁]; trivial)).fresh.readerShutdown
  · -- meanwhile the opener disturbs nobody: it holds no view it has fetched
    intro d₁ wait₁ turn _ hpc₁
    have hfetched : (Pc.opener d₁.pc).fetched? = none := by rw [hpc₁]; rfl
    refine ⟨?_, ?_⟩
    · cases turn with
      | caller =>
        intro e he
        rw [hfetched] at he
        cases he
      | refresh =>
        intro e _ e' he'
        rw [hfetched] at he'
        cases he'
    · intro _
      rw [hpc₁]
      exact not_beaten_propose (hcheck wait₁)

/-- The wait for the own view ends. -/
theorem Ready.returns_waitNew (h : s.Ready u name d) (hpc : d.pc = .propose (.waitNew wait)) :
    s.Returns d := by
  have hK : s.caller.Waits (fun wait => .propose (.waitNew wait)) (s.proposed (.ok ())) := by
    intro sh pc hlb
    rw [caller_run, run_propose hlb]
    simp only [proposeSequencer, Move.inside_inside]
    rfl
  have hop := (h.live.facts (by rw [hpc]; trivial)).op
  rw [hpc] at hop
  have hnewer : wait.epoch < latestEpoch u d.backend := by cases wait <;> exact hop
  refine (h.waited hK hpc (by rintro _ _ _ ⟨⟩) hnewer).bind ?_
  rintro d₁ ⟨h₁, hpc₁⟩
  exact h₁.returns_proposed hpc₁

/-- The look at the newer view: the thread gives up, or starts again with one retry less. -/
theorem Ready.returns_check (h : s.Ready u name d) (hagain : s.Restarts u name retries)
    (hpc : d.pc = .propose (.check retries curr)) : s.Returns d := by
  -- the other client's configuration is in place: the opener gives up, which is an end as well
  by_cases hbeaten : d.pc.Beaten d.shared
  · exact .here (Or.inr hbeaten)
  · obtain ⟨v, hv⟩ : ∃ v, d.shared.view = some v := by
      apply Option.ne_none_iff_exists'.mp
      exact (h.live.facts (by rw [hpc]; trivial)).viewed (by rw [hpc]; trivial)
    -- nobody has beaten this client, so it starts again with one try less
    have hno : ¬ (retries - 1 = 0 ∨ (v.seqConfig ≠ none ∧ v.seqConfig ≠ curr.seqConfig)) := by
      intro hlost
      refine hbeaten ⟨.check retries curr, ?_, v, hv, hlost⟩
      rw [hpc]
      rfl
    obtain ⟨hretry, hsame⟩ := not_or.mp hno
    have hsame : v.seqConfig = none ∨ v.seqConfig = curr.seqConfig := by
      by_contra hcon
      exact hsame (not_or.mp hcon)
    have hm : s.run d.shared d.pc =
        some (.memory d.shared (.propose (.start (retries - 1)))) := by
      rw [h.propose_run hpc]
      simp only [proposeSequencer, Shared.withView, hv, if_pos hsame, if_neg hretry]
      rfl
    refine h.access hm hbeaten fun h₁ => hagain _ h₁ (retries - 1) (by omega) rfl

/-- The wait for another view ends. -/
theorem Ready.returns_waitStale (h : s.Ready u name d) (hagain : s.Restarts u name retries)
    (hpc : d.pc = .propose (.waitStale retries curr wait)) : s.Returns d := by
  have hK : s.caller.Waits (fun wait => .propose (.waitStale retries curr wait))
      (.propose (.check retries curr)) := by
    intro sh pc hlb
    rw [caller_run, run_propose hlb]
    simp only [proposeSequencer, Move.inside_inside]
    rfl
  have hop := (h.live.facts (by rw [hpc]; trivial)).op
  rw [hpc] at hop
  have hnewer : wait.epoch < latestEpoch u d.backend := by cases wait <;> exact hop.2
  refine (h.waited hK hpc (by rintro _ _ _ ⟨⟩) hnewer).bind ?_
  rintro d₁ ⟨h₁, hpc₁⟩
  exact h₁.returns_check hagain hpc₁

/-- The proposal is accepted, or another client has stored a view for its epoch. -/
theorem Ready.returns_propose {seed : Nat} (h : s.Ready u name d)
    (hagain : s.Restarts u name retries) (hpc : d.pc = .propose (.propose retries curr seed)) :
    s.Returns d := by
  -- the scan is valid, so the backend accepts the proposal or finds a newer view
  have hfacts := h.live.facts (by rw [hpc]; trivial)
  have hop := hfacts.op
  rw [hpc] at hop
  obtain ⟨hheld, -⟩ := hop
  have hlb := hfacts.shared.backend s.lb hfacts.handle
  have hn : NextView curr.epoch curr.view
      (curr.view.withSequencerConfig ⟨curr.epoch + 1, s.lb.token, seed⟩) :=
    .sequencer s.lb.token seed hlb.2.2
  obtain ⟨r, b, hexec, hr, -⟩ := hfacts.log.exec_proposeView hheld hn
  rw [← hlb.1] at hexec
  have hbeaten : ¬ d.pc.Beaten d.shared := by
    rw [hpc]
    exact not_beaten_propose (by rintro _ _ ⟨⟩)
  refine h.call (h.propose_run hpc) hexec hbeaten fun h₁ => ?_
  -- accepted, or beaten
  rcases hr with rfl | rfl
  · exact h₁.returns_waitNew rfl
  · exact h₁.returns_waitStale hagain rfl

/-! ## Scanning the stripes -/

variable {stripe : Stripe} {oid : String} {rest : List String} {acc : Option Nat} {k : Nat}

/-- `Open` can return from the scan of the stripes below `k`. -/
def Scans (s : Opener) (u : Uuid) (name : String) (retries : Nat) (curr : VersionedView) (k : Nat) :
    Prop :=
  ∀ d, s.Ready u name d → d.pc = .propose (.scan retries curr k) → s.Returns d

/-- The thread goes on where the answer of an object takes it. -/
theorem Ready.asks (h : s.Ready u name d)
    (hpc : d.pc = .propose (.maxPos retries curr stripe oid rest acc))
    (hP : ∀ acc' d₁, s.Ready u name d₁ →
      d₁.pc = .propose (match rest with
        | [] => .endStripe retries curr stripe acc'
        | oid :: rest => .maxPos retries curr stripe oid rest acc') → s.Returns d₁) :
    s.Returns d := by
  have hfacts := h.live.facts (by rw [hpc]; trivial)
  have hop := hfacts.op
  rw [hpc] at hop
  obtain ⟨-, -, -, hsealed, -, k, hd, -⟩ := hop
  obtain ⟨rfl, hk, -⟩ := oids_cursor hd
  have hlb : HandleOk u s.lb := hfacts.shared.backend s.lb hfacts.handle
  -- the object was sealed, so it answers
  obtain ⟨o, ho⟩ := exists_objectAt (Nat.zero_lt_of_lt (hsealed k hk))
  have hexec := exec_maxPos ho
  rw [← hlb.oid] at hexec
  have hbeaten : ¬ d.pc.Beaten d.shared := by
    rw [hpc]
    exact not_beaten_propose (by rintro _ _ ⟨⟩)
  refine h.call (h.propose_run hpc) hexec hbeaten fun h₁ => ?_
  refine hP (foldMaxPos acc o.maxPos) _ h₁ ?_
  cases rest <;> rfl

/-- The objects of a stripe answer one after the other. -/
theorem Ready.returns_maxPos (hagain : s.Restarts u name retries)
    (hscan : s.Scans u name retries curr stripe.stripeId) (h : s.Ready u name d)
    (hpc : d.pc = .propose (.maxPos retries curr stripe oid rest acc)) : s.Returns d := by
  induction rest generalizing d oid acc with
  | nil =>
    refine h.asks hpc fun acc' d₁ h₁ hpc₁ => ?_
    cases acc' with
    | none => exact hscan d₁ h₁ hpc₁
    | some position => exact h₁.returns_propose hagain hpc₁
  | cons oid' rest ih => exact h.asks hpc fun acc' d₁ h₁ hpc₁ => ih h₁ hpc₁

/-- The thread goes on behind an object that it sealed, or that was sealed before. -/
theorem Ready.seals (h : s.Ready u name d)
    (hpc : d.pc = .propose (.seal retries curr stripe oid rest))
    (hP : ∀ d₁, s.Ready u name d₁ →
      d₁.pc = Next.elim .propose s.proposed (ProposePc.afterSeal retries curr stripe rest) →
      s.Returns d₁) : s.Returns d := by
  -- the object is one of the stripe, so the seal answers
  have hfacts := h.live.facts (by rw [hpc]; trivial)
  have hop := hfacts.op
  rw [hpc] at hop
  obtain ⟨-, -, -, k, hd, -⟩ := hop
  obtain ⟨rfl, -, -⟩ := oids_cursor hd
  have hlb : HandleOk u s.lb := hfacts.shared.backend s.lb hfacts.handle
  obtain ⟨r, b, hexec, hr, -⟩ := hfacts.log.exec_seal (s := stripe.stripeId) (i := k)
    (Nat.succ_pos curr.epoch)
  rw [← hlb.oid] at hexec
  have hbeaten : ¬ d.pc.Beaten d.shared := by
    rw [hpc]
    exact not_beaten_propose (by rintro _ _ ⟨⟩)
  refine h.call (h.propose_run hpc) hexec hbeaten fun h₁ => hP _ h₁ ?_
  rcases hr with rfl | rfl <;> rfl

/-- The objects of a stripe are sealed one after the other, and then asked. -/
theorem Ready.returns_seal (hagain : s.Restarts u name retries)
    (hscan : s.Scans u name retries curr stripe.stripeId) (h : s.Ready u name d)
    (hpc : d.pc = .propose (.seal retries curr stripe oid rest)) : s.Returns d := by
  induction rest generalizing d oid with
  | nil =>
    refine h.seals hpc fun d₁ h₁ hpc₁ => ?_
    cases hoids : stripe.oids with
    | nil => exact absurd hoids stripe.oids_ne_nil
    | cons oid rest =>
      simp only [ProposePc.afterSeal, hoids] at hpc₁
      exact h₁.returns_maxPos hagain hscan hpc₁
  | cons oid' rest ih => exact h.seals hpc fun d₁ h₁ hpc₁ => ih h₁ hpc₁

/-- **The scan** ends at a stripe with entries, or behind the first one. -/
theorem scans (hagain : s.Restarts u name retries) (k : Nat) : s.Scans u name retries curr k := by
  -- the scan goes down from the last stripe; the induction is on the stripes that are left
  induction k with
  | zero => exact fun d h hpc => h.returns_propose hagain hpc
  | succ k ih =>
    intro d h hpc
    have hsound := (h.live.facts (by rw [hpc]; trivial)).sound
    -- no stripe of the map is missing
    rw [hpc] at hsound
    cases hstripe : curr.objectMap.stripeById k with
    | error f =>
      simp only [ProposePc.scan, hstripe] at hsound
      exact absurd rfl hsound
    -- a stripe is sealed and asked for its maxima, and the scan goes on below it
    | ok stripe =>
      simp only [ProposePc.scan, hstripe, ProposePc.sealStripe] at hpc
      cases hoids : stripe.oids with
      | nil => exact absurd hoids stripe.oids_ne_nil
      | cons oid rest =>
        simp only [hoids] at hpc
        have hop := (h.live.facts (by rw [hpc]; trivial)).op
        rw [hpc] at hop
        obtain ⟨hheld, -⟩ := hop
        have hlog := (h.live.facts (by rw [hpc]; trivial)).log
        obtain ⟨L, hL⟩ := hlog.history.layout
        obtain ⟨-, hid, -⟩ := (hL curr.view hheld.mem).stripeById_ok hstripe
        exact h.returns_seal hagain (hid ▸ ih) hpc

/-- **Proposing ends**, by induction on the retries. -/
theorem restarts (s : Opener) (u : Uuid) (name : String) (retries : Nat) :
    s.Restarts u name retries := by
  -- on the number of tries
  induction retries with
  | zero => exact fun d h r hr => absurd hr (Nat.not_lt_zero r)
  | succ n ih =>
    intro d h r hr hpc
    have hagain : s.Restarts u name r :=
      fun d' h' r' hr' => ih d' h' r' (Nat.lt_of_lt_of_le hr' (Nat.le_of_lt_succ hr))
    -- a new try scans the current view from its last stripe
    obtain ⟨v, hv⟩ := h.view (by rw [hpc]; trivial)
    have hm : s.run d.shared d.pc = some (.memory d.shared (.propose (.scan r v
        (if v.objectMap.empty then 0 else v.objectMap.numStripes)))) := by
      rw [h.propose_run hpc]
      simp only [proposeSequencer, Shared.withView, hv]
      rfl
    have hbeaten : ¬ d.pc.Beaten d.shared := by
      rw [hpc]
      exact not_beaten_propose (by rintro _ _ ⟨⟩)
    exact h.access hm hbeaten fun h₁ => scans hagain _ _ h₁ rfl

/-! ## The whole of `build_log_impl` -/

/-- The view is checked, and a proposal is made if there is no sequencer. -/
theorem Ready.returns_checkView (h : s.Ready u name d) (hpc : d.pc = .checkView) :
    s.Returns d := by
  obtain ⟨v, hv⟩ := h.view (by rw [hpc]; trivial)
  have hm : s.run d.shared d.pc = some (.memory { d.shared with managerStarted := true }
      (.propose .enter)) := by
    rw [hpc]
    simp only [run, openEntry, hv]
  exact h.access hm (not_beaten (by rw [hpc]; rfl)) fun h₁ =>
    restarts s u name 6 _ h₁ 5 (Nat.lt_succ_self 5) rfl

/-- The view that was fetched is installed when the refresh thread holds no older one. -/
theorem Live.installs (h : s.Live u name d) {epoch : Nat} {blob : Fbs.View}
    (hpc : d.pc = .install epoch blob)
    (hfirst : ∀ e ∈ (Pc.refresh d.refresh).fetched?, epoch ≤ e) : s.Returns d := by
  -- the view can be decoded, and it is no older than the one held: no assertion fails
  have hfacts := h.facts (by rw [hpc]; trivial)
  have hop := hfacts.op
  rw [hpc] at hop
  obtain ⟨v, hdecode, -⟩ := hop
  have hlive : installMove s.lb d.shared epoch blob OpenPc.checkView ≠ .abort :=
    installMove_ne_abort hdecode hfacts.handle hfacts.seqs
      fun curr hcurr => hfacts.fetched epoch (by rw [hpc]; rfl) curr hcurr
  have hrun : s.run d.shared d.pc = some (installMove s.lb d.shared epoch blob .checkView) := by
    rw [hpc]
    simp only [run, openEntry, hfacts.handle, caller_lb]
  cases hm : installMove s.lb d.shared epoch blob OpenPc.checkView with
  | abort => exact absurd hm hlive
  | backend call next =>
    exact absurd (congrArg some hm) (fun heq => installMove_calls (P := fun _ => False) _ _ _ heq)
  | memory sh pc =>
    have haccess : Lands d.shared (fun _ pc => pc = OpenPc.checkView)
        (some (installMove s.lb d.shared epoch blob .checkView)) :=
      installMove_access.imp fun sh' pc hpc => hpc.1
    rw [hm] at haccess
    obtain rfl : pc = .checkView := haccess
    have hs : s.caller.step d .caller = some { d with shared := sh, pc := .checkView } := by
      simp only [Caller.step, caller_run, hrun, hm]
    -- the refresh thread holds no older view, so it is not in the way
    have hok : d.Undisturbed .caller := by
      refine ⟨?_, fun _ => not_beaten (by rw [hpc]; rfl)⟩
      intro e he e' he'
      rw [hpc] at he
      cases he
      exact hfirst e' he'
    have h₁ := h.step hok hs
    refine .next hok hs ((h₁.rests trivial rfl).bind ?_)
    rintro d₂ ⟨h₂, hpc₂⟩
    exact h₂.returns_checkView hpc₂

/-- The refresh thread installs the older view that it holds first. -/
theorem Live.returns_install (h : s.Live u name d) {epoch : Nat} {blob : Fbs.View}
    (hpc : d.pc = .install epoch blob) : s.Returns d := by
  -- the refresh thread holds an older view: it installs first
  by_cases hfirst : ∀ e ∈ (Pc.refresh d.refresh).fetched?, epoch ≤ e
  · exact h.installs hpc hfirst
  · have hfacts := h.facts (by rw [hpc]; trivial)
    obtain ⟨e, he, hlt⟩ : ∃ e ∈ (Pc.refresh d.refresh).fetched?, e < epoch := by
      by_contra hnone
      exact hfirst fun e he => Nat.le_of_not_lt fun hlt => hnone ⟨e, he, hlt⟩
    obtain ⟨blob', hrefresh⟩ : ∃ blob', d.refresh = .install e blob' := by
      cases hr : d.refresh with
      | install e' blob' =>
        rw [hr] at he
        cases he
        exact ⟨blob', rfl⟩
      | _ =>
        rw [hr] at he
        cases he
    obtain ⟨sh, v, hs, -, -⟩ := hfacts.installs hrefresh hfacts.survives
    have hok : d.Undisturbed .refresh := by
      refine ⟨?_, by rintro ⟨⟩⟩
      intro e₁ he₁ e₂ he₂
      rw [hpc] at he₂
      cases he₂
      cases he.symm.trans he₁
      exact Nat.le_of_lt hlt
    refine .next hok hs ((h.step hok hs).installs hpc ?_)
    rintro e' ⟨⟩

/-- The first view is read. -/
theorem Ready.returns_fetch (h : s.Ready u name d) (hpc : d.pc = .fetch) : s.Returns d := by
  have hfacts := h.live.facts (by rw [hpc]; trivial)
  obtain ⟨blob, hexec, -⟩ := hfacts.log.exec_readViews
  have hlb : HandleOk u s.lb := hfacts.shared.backend s.lb hfacts.handle
  rw [← hlb.1] at hexec
  -- one view comes back, and it is installed
  obtain ⟨next, hm, hnext⟩ : ∃ next, s.run d.shared d.pc =
      some (.backend (.readViews s.lb.hoid 0 1) next) ∧
      next (.ok [(latestEpoch u d.backend, blob)]) = .install (latestEpoch u d.backend) blob := by
    rw [hpc]
    unfold run openEntry
    rw [hfacts.handle]
    exact ⟨_, rfl, rfl⟩
  exact h.call hm hexec (not_beaten (by rw [hpc]; rfl)) fun h₁ => h₁.live.returns_install hnext

/-- **`build_log_impl` can return** in every undisturbed run. -/
theorem Live.returns (h : s.Live u name d) (hbuilding : d.pc.Building) : s.Returns d := by
  -- the refresh thread is brought to rest first, unless the opener holds a view
  have hrests : (Pc.opener d.pc).fetched? = none →
      (∀ d₁, s.Ready u name d₁ → d₁.pc = d.pc → s.Returns d₁) → s.Returns d := by
    intro hfetched hreturns
    refine (h.rests hbuilding hfetched).bind ?_
    rintro d₁ ⟨h₁, hpc₁⟩
    exact hreturns d₁ h₁ hpc₁
  cases hpc : d.pc with
  | fetch => exact hrests (by rw [hpc]; rfl) fun d₁ h₁ hpc₁ => h₁.returns_fetch (hpc₁.trans hpc)
  | install epoch blob => exact h.returns_install hpc
  | checkView =>
    exact hrests (by rw [hpc]; rfl) fun d₁ h₁ hpc₁ => h₁.returns_checkView (hpc₁.trans hpc)
  | checkStripes =>
    refine hrests (by rw [hpc]; rfl) fun d₁ h₁ hpc₁ => ?_
    exact h₁.returns_checkStripes (hpc₁.trans hpc)
  | initStripe =>
    refine hrests (by rw [hpc]; rfl) fun d₁ h₁ hpc₁ => ?_
    exact h₁.returns_initStripe (hpc₁.trans hpc)
  | propose p =>
    refine hrests (by rw [hpc]; rfl) fun d₁ h₁ hpc₁ => ?_
    have hpc₁ := hpc₁.trans hpc
    cases p with
    | start r => exact restarts s u name (r + 1) d₁ h₁ r (Nat.lt_succ_self r) hpc₁
    | «seal» r curr stripe oid rest =>
      exact h₁.returns_seal (restarts s u name r) (scans (restarts s u name r) _) hpc₁
    | maxPos r curr stripe oid rest acc =>
      exact h₁.returns_maxPos (restarts s u name r) (scans (restarts s u name r) _) hpc₁
    | propose r curr seed => exact h₁.returns_propose (restarts s u name r) hpc₁
    | waitNew wait => exact h₁.returns_waitNew hpc₁
    | waitStale r curr wait => exact h₁.returns_waitStale (restarts s u name r) hpc₁
    | check r curr => exact h₁.returns_check (restarts s u name r) hpc₁
    | crash => exact absurd hpc₁ (h₁.live.facts (by rw [hpc₁]; trivial)).sound
  -- the other states are not part of `build_log_impl`
  | _ =>
    rw [hpc] at hbuilding
    exact hbuilding.elim

end

end Opener

/-! ## The opening of a log -/

section

variable {u : Uuid} {name : String} {w w' : World} {cid : Nat} {c : Client} {t : Thread}
  {pc : OpenPc}

/-- The client has returned from `Open`, or another client was faster. -/
def World.Ends (w : World) (cid : Nat) : Prop :=
  ∃ c t pc, w.clients[cid]? = some c ∧ c.threads[0]? = some t ∧ t.pc = .opener pc ∧
    (pc.Returned ∨ pc.Beaten c.shared)

/-- The client can return from `Open` with its own steps and those of its refresh thread, or another
    client is faster. -/
def World.CanOpen (w : World) (cid : Nat) : Prop :=
  Lib.Can World.step (fun w a => Solely cid 0 w a ∧ Undisturbed w a) (World.Ends · cid) w

/-- Once it has a view reader. -/
theorem Opening.returns_built (hO : Opening u name w) (hc : w.clients[cid]? = some c)
    (ht : c.threads[0]? = some t) (hpc : t.pc = .opener pc) (hbuilding : pc.Building) :
    w.CanOpen cid := by
  have hcmem := List.mem_of_getElem? hc
  -- the opening client and its refresh thread form a scene
  have hstage := (hO.opens cid c hc).stage t (List.mem_of_getElem? ht) pc hpc
  obtain ⟨hfresh, -⟩ := hstage.building hbuilding
  obtain ⟨lb, hlb⟩ := Option.ne_none_iff_exists'.mp hfresh.backend
  obtain ⟨t₁, rpc, ht₁, hpc₁⟩ := (hO.tended c hcmem).refresh
  have hshows : (Opener.mk (c.setting w.name) lb).caller.Shows cid 0 w
      ⟨w.backend, c.shared, rpc, pc⟩ :=
    ⟨rfl, rfl, c, hc, rfl, rfl, hfresh.alive, hlb, ⟨t, ht, hpc⟩, ⟨t₁, ht₁, hpc₁⟩⟩
  have hlive : (Opener.mk (c.setting w.name) lb).Live u name ⟨w.backend, c.shared, rpc, pc⟩ :=
    ⟨w, cid, hO, hshows⟩
  -- the scene returns, and so does the client in the world
  obtain ⟨d', hrun, hends⟩ := hlive.returns hbuilding
  obtain ⟨w', hrun', -, -, c', hc', hshown⟩ := hshows.leads hO
    (fun _ _ _ hO hok hs => hO.step hok hs) (fun _ _ _ => Opener.undisturbed_of_shows) hrun
  obtain ⟨t', ht', hpc'⟩ := hshown.caller
  exact ⟨w', hrun', c', t', d'.pc, hc', ht', hpc', hshown.shared ▸ hends⟩

/-- One step of the opening thread before there is a view reader. -/
theorem Opening.advances (hO : Opening u name w) (hc : w.clients[cid]? = some c)
    (ht : c.threads[0]? = some t) (hpc : t.pc = .opener pc) (hunbuilt : pc.Unbuilt)
    {P : OpenPc → Prop} {m : Move OpenPc}
    (hm : openEntry w.name c.host.text c.options c.created c.shared pc = some m)
    (hlands : Lands c.shared (fun _ pc' => P pc') (some m)) (halive : m ≠ .abort)
    (hP : ∀ w' c' t' pc', Opening u name w' → w'.clients[cid]? = some c' →
      c'.threads[0]? = some t' → t'.pc = .opener pc' → P pc' → w'.CanOpen cid) : w.CanOpen cid := by
  have hstage := (hO.opens cid c hc).stage t (List.mem_of_getElem? ht) pc hpc
  -- nothing is built yet, so the memory is fresh and the process alive
  obtain ⟨hshared, -⟩ := hstage.unbuilt hunbuilt
  have hmove : t.pc.move w.name c = some (m.map .opener) := by
    simp only [hpc, Pc.move, hm, Option.map_some]
  have hs := World.step_of_move hc (by rw [hshared]) ht hmove
  -- the opener holds no view and proposes none
  have hok : Undisturbed w (.run cid 0) := by
    refine ⟨?_, ?_⟩
    · intro c' hc' t' ht' e he
      cases hc.symm.trans hc'
      cases ht.symm.trans ht'
      rw [hpc] at he
      cases pc <;> first | exact hunbuilt.elim | cases he
    · rintro c' hc' t' ht' pc' hpc' ⟨p, hp, -⟩
      cases hc.symm.trans hc'
      cases ht.symm.trans ht'
      rw [hpc] at hpc'
      cases hpc'
      cases pc <;> first | exact hunbuilt.elim | cases hp
  have hO' := hO.step hok hs
  have hclient : ∀ c', (w.clients.set cid c')[cid]? = some c' :=
    fun c' => List.getElem?_set_self (lt_of_getElem?_eq_some hc)
  have hthread : ∀ t' : Thread, (c.threads.set 0 t')[0]? = some t' :=
    fun t' => List.getElem?_set_self (lt_of_getElem?_eq_some ht)
  -- one step of the opener, and then the rest
  refine .next ⟨Or.inl rfl, hok⟩ hs ?_
  cases m with
  | abort => exact absurd rfl halive
  | memory sh pc' => exact hP _ _ _ pc' hO' (hclient _) (hthread _) rfl hlands
  | backend call next => exact hP _ _ _ _ hO' (hclient _) (hthread _) rfl (hlands _)

/-- The handle is made. -/
theorem Opening.returns_construct {hoid pfx : String} {id : Nat} (hO : Opening u name w)
    (hc : w.clients[cid]? = some c) (ht : c.threads[0]? = some t)
    (hpc : t.pc = .opener (.construct hoid pfx id)) : w.CanOpen cid := by
  refine hO.advances (P := fun pc' => pc' = .fetch) hc ht hpc trivial rfl rfl (by rintro ⟨⟩) ?_
  rintro w' c' t' pc' hO' hc' ht' hpc' rfl
  exact hO'.returns_built hc' ht' hpc' trivial

/-- A call of `create_or_open` that failed has returned. -/
theorem World.ends_failed {e : Errno} (hc : w.clients[cid]? = some c) (ht : c.threads[0]? = some t)
    (hpc : t.pc = .opener (.failed e)) : w.CanOpen cid :=
  .here ⟨c, t, .failed e, hc, ht, hpc, Or.inl trivial⟩

/-- The id is drawn. -/
theorem Opening.returns_uniqueId {hoid pfx : String} (hO : Opening u name w)
    (hc : w.clients[cid]? = some c) (ht : c.threads[0]? = some t)
    (hpc : t.pc = .opener (.uniqueId hoid pfx)) : w.CanOpen cid := by
  refine hO.advances (P := fun pc' => (∃ id, pc' = .construct hoid pfx id) ∨ ∃ e, pc' = .failed e)
    hc ht hpc trivial rfl ?_ (by rintro ⟨⟩) ?_
  · intro r
    cases r with
    | ok id => exact Or.inl ⟨id, rfl⟩
    | error e => exact Or.inr ⟨e, rfl⟩
  · rintro w' c' t' pc' hO' hc' ht' hpc' (⟨id, rfl⟩ | ⟨e, rfl⟩)
    · exact hO'.returns_construct hc' ht' hpc'
    · exact World.ends_failed hc' ht' hpc'

/-- The log is looked up. -/
theorem Opening.returns_openLog (hO : Opening u name w) (hc : w.clients[cid]? = some c)
    (ht : c.threads[0]? = some t) (hpc : t.pc = .opener .openLog) : w.CanOpen cid := by
  refine hO.advances (P := fun pc' => (∃ hoid pfx, pc' = .uniqueId hoid pfx) ∨ ∃ e, pc' = .failed e)
    hc ht hpc trivial rfl ?_ (by rintro ⟨⟩) ?_
  · intro r
    cases r with
    | ok names =>
      dsimp only
      split
      · exact Or.inr ⟨_, rfl⟩
      · exact Or.inl ⟨_, _, rfl⟩
    | error e => exact Or.inr ⟨e, rfl⟩
  · rintro w' c' t' pc' hO' hc' ht' hpc' (⟨hoid, pfx, rfl⟩ | ⟨e, rfl⟩)
    · exact hO'.returns_uniqueId hc' ht' hpc'
    · exact World.ends_failed hc' ht' hpc'

/-- **`Open` can return**: from every state of an undisturbed run, with steps of its own and of the
    refresh thread of its client, unless another client is faster. -/
theorem Opening.returns (hO : Opening u name w) (hc : w.clients[cid]? = some c)
    (ht : c.threads[0]? = some t) (hpc : t.pc = .opener pc) : w.CanOpen cid := by
  by_cases hret : pc.Returned
  · exact .here ⟨c, t, pc, hc, ht, hpc, Or.inl hret⟩
  have hstage := (hO.opens cid c hc).stage t (List.mem_of_getElem? ht) pc hpc
  rcases pc.stage_cases hret hstage.sound.1 with ⟨hunbuilt, -⟩ | hbuilding
  · cases pc with
    | openLog => exact hO.returns_openLog hc ht hpc
    | uniqueId hoid pfx => exact hO.returns_uniqueId hc ht hpc
    | construct hoid pfx id => exact hO.returns_construct hc ht hpc
    | failed e => exact World.ends_failed hc ht hpc
    | _ => exact hunbuilt.elim
  · exact hO.returns_built hc ht hpc hbuilding

end

end ZLog
