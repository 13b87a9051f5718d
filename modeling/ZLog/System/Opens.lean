import ZLog.Client.Access
import ZLog.System.ViewOrder
import ZLog.System.Pending
import ZLog.System.Sequencers

/-!
# Opening a log

`build_log_impl` builds a view reader, whose refresh thread starts at once, and a view manager with
two threads, and then proposes its client.  When `propose_sequencer` returns an error, the view
manager is destroyed with its threads running, which its destructor asserts not to happen.  The
errors are those of a lost race, so an opening that is not beaten by another client ends in a
handle.

## Main results

- `openEntry_steps`: what one step of the opening thread does.
- `Client.Opens.step`, `Client.Opens.clean`: while no client is beaten and views are installed in
  order, no client that opens the log dies, and its destructors find what they assert.
- `open_beaten`: a run in which a client loses the race and dies.
-/

namespace ZLog

/-! ## Answers of the backend -/

section

variable {σ τ ρ : Type} {sh : Shared} {b : Store}

/-- The control state and the memory after a move, with the answer of the backend in state `b`. -/
def Gives (b : Store) (sh : Shared) (P : Shared → σ → Prop) : Option (Move σ) → Prop
  | some (.memory sh' s) => P sh' s
  | some (.backend call next) => P sh (next (b.exec call).1)
  | _ => True

theorem Lands.gives {P : Shared → σ → Prop} {m : Option (Move σ)} (h : Lands sh P m) :
    Gives b sh P m := by
  cases m with
  | none => trivial
  | some m =>
    cases m with
    | backend call next => exact h _
    | memory sh' s => exact h
    | abort => trivial

theorem Gives.imp {P Q : Shared → σ → Prop} {m : Option (Move σ)} (h : Gives b sh P m)
    (himp : ∀ sh s, P sh s → Q sh s) : Gives b sh Q m := by
  cases m with
  | none => trivial
  | some m =>
    cases m with
    | backend call next => exact himp _ _ h
    | memory sh' s => exact himp _ _ h
    | abort => trivial

theorem Gives.and {P Q : Shared → σ → Prop} {m : Option (Move σ)} (h : Gives b sh P m)
    (h' : Gives b sh Q m) : Gives b sh (fun sh s => P sh s ∧ Q sh s) m := by
  cases m with
  | none => trivial
  | some m =>
    cases m with
    | backend call next => exact ⟨h, h'⟩
    | memory sh' s => exact ⟨h, h'⟩
    | abort => trivial

theorem Gives.map {P : Shared → τ → Prop} {f : σ → τ} {m : Option (Move σ)}
    (h : Gives b sh (fun sh s => P sh (f s)) m) : Gives b sh P (m.map (Move.map f)) := by
  cases m with
  | none => trivial
  | some m =>
    cases m with
    | backend call next => exact h
    | memory sh' s => exact h
    | abort => trivial

theorem Gives.inside {P : Shared → τ → Prop} {goto : σ → τ} {ret : ρ → τ}
    {m : Option (Move (Next σ ρ))}
    (h : Gives b sh (fun sh s => P sh (Next.elim goto ret s)) m) :
    Gives b sh P (Move.inside goto ret m) := Gives.map h

theorem Moves.gives {name : String} {c : Client} {P : Shared → Pc → Prop} {b' : Store} {pc pc' : Pc}
    {sh : Shared} (h : Moves name c pc b sh pc' b')
    (hg : Gives b c.shared P (pc.move name c)) : P sh pc' := by
  cases h with
  | call call next hm =>
    rw [hm] at hg
    exact hg
  | access sh pc' hm =>
    rw [hm] at hg
    exact hg

theorem Moves.gives_op {name : String} {c : Client} {P : Shared → OpPc → Prop} {b' : Store}
    {r : Request} {opc opc' : OpPc} {sh : Shared}
    (h : Moves name c (.op r opc) b sh (.op r opc') b')
    (hg : ∀ lb, c.shared.backend = some lb →
      Gives b c.shared P (r.run c.options lb c.shared opc)) : P sh opc' := by
  have hgives : Gives b c.shared (fun sh pc => ∀ s, pc = .op r s → P sh s)
      ((Pc.op r opc).move name c) := by
    simp only [Pc.move]
    split
    · trivial
    · next lb hlb =>
      refine Gives.map ((hg lb hlb).imp ?_)
      intro sh s hs s' heq
      cases heq
      exact hs
  exact h.gives hgives opc' rfl

end

/-! ## Proposing a sequencer -/

/-- Another client has become the sequencer, or there is no retry left: `propose_sequencer` gives
    up. -/
def ProposePc.Beaten (sh : Shared) : ProposePc → Prop
  | .check retries curr => ∃ updated ∈ sh.view,
      retries - 1 = 0 ∨ (updated.seqConfig ≠ none ∧ updated.seqConfig ≠ curr.seqConfig)
  | _ => False

instance decidableProposeBeaten (sh : Shared) : (pc : ProposePc) → Decidable (pc.Beaten sh)
  | .check retries curr => inferInstanceAs (Decidable (∃ updated ∈ sh.view,
      retries - 1 = 0 ∨ (updated.seqConfig ≠ none ∧ updated.seqConfig ≠ curr.seqConfig)))
  | .start _ => isFalse id
  | .seal .. => isFalse id
  | .maxPos .. => isFalse id
  | .propose .. => isFalse id
  | .waitNew _ => isFalse id
  | .waitStale .. => isFalse id
  | .crash => isFalse id

section

variable {u : Uuid} {name : String} {b : Store} {sh : Shared} {lb : LogBackend}

theorem ProposePc.Proposing.ne_crash {e : Nat} {pc : ProposePc} (h : pc.Proposing e) :
    pc ≠ .crash := by
  rintro rfl
  exact h

/-- **Proposing** fails only when another client is faster. -/
theorem proposeSequencer_gives {pc : ProposePc} (h : LogOk u name b) (hsh : SharedOk u b sh)
    (hlb : HandleOk u lb) (hpc : ProposeOk u b pc) (hbeaten : ¬ pc.Beaten sh) :
    Gives b sh (fun _ s => s.All (· ≠ .crash) (· = .ok ())) (proposeSequencer lb sh pc) := by
  have hstripes : ∀ {curr : VersionedView}, Held u b curr →
      (if curr.objectMap.empty then 0 else curr.objectMap.numStripes) ≤
        curr.objectMap.numStripes := fun _ => by split <;> omega
  cases pc with
  | start retries =>
    simp only [proposeSequencer, Shared.withView]
    split
    · trivial
    · next curr hcurr =>
      have hc := hsh.view curr hcurr
      exact (h.scan_proposing retries hc (hstripes hc)).ne_crash
  | «seal» retries curr stripe oid rest =>
    obtain ⟨hc, -, -, k, hd, -⟩ := hpc
    obtain ⟨rfl, -, -⟩ := oids_cursor hd
    obtain ⟨r, b', hexec, hr, -⟩ := h.exec_seal (s := stripe.stripeId) (i := k)
      (show 0 < curr.epoch + 1 by omega)
    have hgo : (ProposePc.afterSeal retries curr stripe rest).All (· ≠ .crash) (· = .ok ()) := by
      unfold ProposePc.afterSeal
      cases rest with
      | cons oid rest => exact ProposePc.noConfusion
      | nil =>
        cases hoids : stripe.oids with
        | nil => exact absurd hoids stripe.oids_ne_nil
        | cons oid rest => exact ProposePc.noConfusion
    simp only [proposeSequencer, hlb.oid, Gives, hexec]
    rcases hr with rfl | rfl
    · exact hgo
    · exact hgo
  | maxPos retries curr stripe oid rest acc =>
    obtain ⟨hc, hs, -, hsealed, -, k, hd, -⟩ := hpc
    obtain ⟨rfl, hk, -⟩ := oids_cursor hd
    -- the object was sealed, so it answers
    obtain ⟨o, ho⟩ := exists_objectAt (Nat.zero_lt_of_lt (hsealed k hk))
    simp only [proposeSequencer, hlb.oid, Gives, exec_maxPos ho]
    cases rest with
    | cons oid rest => exact ProposePc.noConfusion
    | nil =>
      show ProposePc.endStripe _ _ _ _ ≠ .crash
      cases foldMaxPos acc o.maxPos with
      | some x => exact ProposePc.noConfusion
      | none =>
        obtain ⟨L, hL⟩ := h.history.layout
        have hlt := ((hL curr.view hc.mem).stripeById_ok hs).1
        exact (h.scan_proposing retries hc (Nat.le_of_lt hlt)).ne_crash
  | propose retries curr seed =>
    obtain ⟨hc, -⟩ := hpc
    have hn : NextView curr.epoch curr.view
        (curr.view.withSequencerConfig ⟨curr.epoch + 1, lb.token, seed⟩) :=
      .sequencer lb.token seed hlb.2.2
    obtain ⟨r, b', hexec, hr, -⟩ := h.exec_proposeView hc hn
    simp only [proposeSequencer, hlb.1, Gives, hexec]
    rcases hr with rfl | rfl
    · exact ProposePc.noConfusion
    · exact ProposePc.noConfusion
  | waitNew wait =>
    refine Gives.inside (Lands.gives (lands_of_forall (fun _ s => ?_) _))
    cases s with
    | goto wait => exact ProposePc.noConfusion
    | ret r => rfl
  | waitStale retries curr wait =>
    refine Gives.inside (Lands.gives (lands_of_forall (fun _ s => ?_) _))
    cases s with
    | goto wait => exact ProposePc.noConfusion
    | ret r => exact ProposePc.noConfusion
  | check retries curr =>
    simp only [proposeSequencer, Shared.withView]
    split
    · trivial
    · next updated hup =>
      -- the configuration is the one that the proposal was made against
      have hsame : updated.seqConfig = none ∨ updated.seqConfig = curr.seqConfig := by
        by_contra hcon
        rw [not_or] at hcon
        exact hbeaten ⟨updated, hup, Or.inr hcon⟩
      have hretry : retries - 1 ≠ 0 := fun h0 => hbeaten ⟨updated, hup, Or.inl h0⟩
      rw [if_pos hsame, if_neg hretry]
      exact ProposePc.noConfusion
  | crash => trivial

/-! ## The steps of opening and closing -/

/-- One step of the thread that opens and closes the log, when it is not beaten. -/
inductive OpenStep (sh : Shared) : OpenPc → Shared → OpenPc → Prop where
  | found (hoid pfx : String) : OpenStep sh .openLog sh (.uniqueId hoid pfx)
  | missing (e : Errno) : OpenStep sh .openLog sh (.failed e)
  | named {hoid pfx : String} (id : Nat) :
      OpenStep sh (.uniqueId hoid pfx) sh (.construct hoid pfx id)
  | unnamed {hoid pfx : String} (e : Errno) : OpenStep sh (.uniqueId hoid pfx) sh (.failed e)
  | built {hoid pfx : String} {id : Nat} (lb : LogBackend) :
      OpenStep sh (.construct hoid pfx id) { sh with backend := some lb, readerStarted := true }
        .fetch
  | fetched (epoch : Nat) (blob : Fbs.View) : OpenStep sh .fetch sh (.install epoch blob)
  | kept {epoch : Nat} {blob : Fbs.View} : sh.view ≠ none →
      OpenStep sh (.install epoch blob) sh .checkView
  | installed {epoch : Nat} {blob : Fbs.View} (seqs : List Sequencer) (v : VersionedView) :
      OpenStep sh (.install epoch blob) { sh with seqs := seqs, view := some v } .checkView
  | managed : OpenStep sh .checkView { sh with managerStarted := true } (.propose .enter)
  | proposing {pc : ProposePc} {sh' : Shared} (pc' : ProposePc) : Waited sh sh' → pc' ≠ .crash →
      OpenStep sh (.propose pc) sh' (.propose pc')
  | won {pc : ProposePc} {sh' : Shared} (pc' : OpenPc) : Waited sh sh' →
      pc' = .checkStripes ∨ pc' = .opened → OpenStep sh (.propose pc) sh' pc'
  | checked (pc' : OpenPc) : pc' = .initStripe ∨ pc' = .opened → OpenStep sh .checkStripes sh pc'
  | queued (positions : List Nat) :
      OpenStep sh .initStripe { sh with stripeInitPos := positions } .opened
  | shutManager :
      OpenStep sh .shutdownManager { sh with managerShutdown := true } .shutdownReader
  | shutReader : OpenStep sh .shutdownReader { sh with readerShutdown := true } .join
  | joined : sh.refreshExited = true → sh.expanderExited = true → sh.stripeInitExited = true →
      OpenStep sh .join sh .closed

/-- Inside `propose_sequencer`. -/
def OpenPc.proposing? : OpenPc → Option ProposePc
  | .propose pc => some pc
  | _ => none

/-- The thread gives up. -/
def OpenPc.Beaten (sh : Shared) (pc : OpenPc) : Prop :=
  ∃ p ∈ pc.proposing?, p.Beaten sh

/-- The current view is there from the moment that `build_log_impl` looks at it. -/
def OpenPc.Viewed : OpenPc → Prop
  | .checkView => True
  | .propose _ => True
  | .checkStripes => True
  | .initStripe => True
  | _ => False

/-- Every step of an opener that is neither beaten nor dying is one of the listed ones. -/
theorem openEntry_steps {host : String} {options : Options} {created : Bool} {pc : OpenPc}
    (h : LogOk u name b) (hsh : SharedOk u b sh) (hpc : OpenOk u b pc) (hbeaten : ¬ pc.Beaten sh)
    (hview : pc.Viewed → sh.view ≠ none) (hcrash : pc ≠ .crash) :
    Gives b sh (fun sh' pc' => OpenStep sh pc sh' pc')
      (openEntry name host options created sh pc) := by
  cases pc with
  | openLog =>
    simp only [openEntry, Gives]
    split
    · split
      · exact .missing _
      · exact .found _ _
    · -- both answers of `UniqueId` go on: the token gets a number, or Open fails
      exact .missing _
  | uniqueId hoid pfx =>
    simp only [openEntry, Gives]
    split
    · exact .named _
    · exact .unnamed _
  | construct hoid pfx id => exact .built _
  | fetch =>
    simp only [openEntry]
    split
    · trivial
    · next lb hlb =>
      obtain ⟨blob, hexec, -⟩ := h.exec_readViews
      simp only [Gives, (hsh.backend lb hlb).1, hexec]
      exact .fetched _ blob
  | install epoch blob =>
    simp only [openEntry]
    -- without a backend there is no step; the constructor sets one before the reader fetches
    split
    · trivial
    · refine installMove_access.gives.imp ?_
      rintro sh' pc' ⟨rfl, ⟨rfl, hne⟩ | ⟨seqs, v, rfl⟩⟩
      · exact .kept hne
      · exact .installed seqs v
  | checkView =>
    simp only [openEntry]
    -- without a view Open would fail here, but the reader has installed one
    split
    · next hnone => exact absurd hnone (hview trivial)
    · exact .managed
  | propose pc =>
    simp only [openEntry]
    split
    · trivial
    · next lb hlb =>
      -- what the proposal returns and what it leaves in the shared state come from two lemmas
      refine Gives.inside ?_
      refine ((proposeSequencer_gives h hsh (hsh.backend lb hlb) hpc fun hb => hbeaten ⟨pc, rfl, hb⟩).and
        (proposeSequencer_access pc).gives).imp ?_
      rintro sh' s ⟨hs, hw⟩
      cases s with
      | goto pc' => exact .proposing pc' hw hs
      | ret r =>
        cases r with
        | error e => cases hs
        | ok =>
          refine .won _ hw ?_
          split
          · exact Or.inl rfl
          · exact Or.inr rfl
  -- the first stripe is initialised when the view has one
  | checkStripes =>
    simp only [openEntry, Shared.withView]
    split
    · trivial
    · refine .checked _ ?_
      split
      · exact Or.inr rfl
      · exact Or.inl rfl
  | initStripe => exact .queued _
  | shutdownManager => exact .shutManager
  | shutdownReader => exact .shutReader
  | join =>
    simp only [openEntry]
    split
    · next hj =>
      simp only [Bool.and_eq_true] at hj
      exact .joined hj.1.1 hj.1.2 hj.2
    · trivial
  | crash => exact absurd rfl hcrash
  | _ => trivial

end

/-! ## Stages -/

/-- `create_or_open` has not returned a backend, or has failed. -/
def OpenPc.Unbuilt : OpenPc → Prop
  | .openLog => True
  | .uniqueId .. => True
  | .construct .. => True
  | .failed _ => True
  | _ => False

/-- There is a view reader, and `Open` has not returned. -/
def OpenPc.Building : OpenPc → Prop
  | .fetch => True
  | .install .. => True
  | .checkView => True
  | .propose _ => True
  | .checkStripes => True
  | .initStripe => True
  | _ => False

/-- No background thread has started, and no operation was invoked. -/
def Pc.Idle : Pc → Prop
  | .opener _ => True
  | .refresh pc => pc = .idle
  | .expander pc => pc = .idle
  | .stripeInit pc => pc = .idle
  | .op .. => False

/-- The refresh thread may be running; the threads of the view manager have nothing to do. -/
def Pc.Starting : Pc → Prop
  | .opener _ => True
  | .refresh pc => pc ≠ .exited
  | .expander pc => pc = .idle
  | .stripeInit pc => pc = .idle
  | .op .. => False

/-- The memory while the log is being opened. -/
structure Shared.Fresh (sh : Shared) : Prop where
  alive : sh.aborted = false
  backend : sh.backend ≠ none
  started : sh.readerStarted = true
  readerShutdown : sh.readerShutdown = false
  managerShutdown : sh.managerShutdown = false
  expandPos : sh.expandPos = none
  stripeInitPos : sh.stripeInitPos = []

/-- What is known of a client at each stage of opening and closing the log. -/
structure Client.Stage (c : Client) (pc : OpenPc) : Prop where
  unbuilt : pc.Unbuilt → c.shared = {} ∧ ∀ t ∈ c.threads, t.pc.Idle
  building : pc.Building → c.shared.Fresh ∧ ∀ t ∈ c.threads, t.pc.Starting
  viewed : pc.Viewed → c.shared.view ≠ none
  sound : pc ≠ .crash ∧ pc ≠ .propose .crash
  closing : pc.Closing → c.shared.managerShutdown = true
  joining : pc = .join ∨ pc = .closed → c.shared.readerShutdown = true
  closed : pc = .closed → c.shared.refreshExited = true ∧ c.shared.expanderExited = true ∧
    c.shared.stripeInitExited = true

section

variable {u : Uuid} {name : String} {w w' w₀ : World} {a : Action} {c c' : Client} {cid tid : Nat}
  {sh sh' : Shared} {pc pc' : OpenPc}

theorem Waited.fresh (h : Waited sh sh') (hf : sh.Fresh) :
    sh'.Fresh ∧ (sh.view ≠ none → sh'.view ≠ none) := by
  cases h with
  | same => exact ⟨hf, id⟩
  | joined epoch hs => exact ⟨⟨hf.1, hf.2, hf.3, hf.4, hf.5, hf.6, hf.7⟩, id⟩

/-- The refresh thread while the log is being opened. -/
theorem refreshEntry_fresh {lb : LogBackend} {pc : RefreshPc} (hf : sh.Fresh) :
    Lands sh (fun sh' pc' => sh'.Fresh ∧ (sh.view ≠ none → sh'.view ≠ none) ∧ pc' ≠ .exited)
      (refreshEntry lb sh pc) := by
  cases pc with
  | idle =>
    simp only [refreshEntry, hf.readerShutdown]
    split
    · trivial
    · exact ⟨hf, id, RefreshPc.noConfusion⟩
  | fetch =>
    intro r
    refine ⟨hf, id, ?_⟩
    dsimp only
    split
    · exact RefreshPc.noConfusion
    · split <;> exact RefreshPc.noConfusion
  | install epoch blob =>
    refine installMove_access.imp ?_
    rintro sh' s ⟨rfl, ⟨rfl, -⟩ | ⟨seqs, v, rfl⟩⟩
    · exact ⟨hf, id, RefreshPc.noConfusion⟩
    · exact ⟨⟨hf.1, hf.2, hf.3, hf.4, hf.5, hf.6, hf.7⟩, fun _ => Option.some_ne_none v,
        RefreshPc.noConfusion⟩
  | readView =>
    simp only [refreshEntry]
    split
    · exact ⟨hf, id, RefreshPc.noConfusion⟩
    · exact ⟨hf, id, RefreshPc.noConfusion⟩
  | mark epoch =>
    exact ⟨⟨hf.1, hf.2, hf.3, hf.4, hf.5, hf.6, hf.7⟩, id, RefreshPc.noConfusion⟩
  | exited => trivial

/-- Before anything is built, only the opening thread moves. -/
theorem Pc.move_idle (name : String) {pc : Pc} (hsh : c.shared = {}) (hidle : pc.Idle) :
    (∃ opc, pc = .opener opc) ∨ pc.move name c = none := by
  have hb : c.shared.backend = none := by rw [hsh]
  cases pc with
  | opener opc => exact Or.inl ⟨opc, rfl⟩
  | op r pc => exact hidle.elim
  | _ =>
    right
    simp only [Pc.move, hb]

/-- While the log is being opened, only the opening thread and the refresh thread move. -/
theorem Pc.move_starting (name : String) {pc : Pc} (hf : c.shared.Fresh) (hs : pc.Starting) :
    (∃ opc, pc = .opener opc) ∨ (∃ rpc, pc = .refresh rpc) ∨ pc.move name c = none := by
  cases pc with
  | opener opc => exact Or.inl ⟨opc, rfl⟩
  | refresh rpc => exact Or.inr (Or.inl ⟨rpc, rfl⟩)
  | expander pc =>
    cases hs
    right
    right
    simp only [Pc.move]
    split
    · rfl
    · simp only [expanderEntry, hf.managerShutdown, hf.expandPos]
      split <;> rfl
  | stripeInit pc =>
    cases hs
    right
    right
    simp only [Pc.move]
    split
    · rfl
    · simp only [stripeInitEntry, hf.managerShutdown, hf.stripeInitPos]
      split <;> rfl
  | op r pc => exact hs.elim

theorem OpenPc.Viewed.building (h : pc.Viewed) : pc.Building := by
  cases pc <;> trivial

/-- Before the view reader is built nothing else is known. -/
theorem Client.Stage.of_unbuilt (hpc : pc.Unbuilt) (hblank : c.shared = {})
    (hidle : ∀ t ∈ c.threads, t.pc.Idle) : c.Stage pc := by
  have hother : ¬ pc.Building ∧ pc ≠ .crash ∧ pc ≠ .propose .crash ∧ ¬ pc.Closing ∧
      ¬ (pc = .join ∨ pc = .closed) := by
    cases pc with
    | openLog => simp [OpenPc.Building, OpenPc.Closing]
    | uniqueId => simp [OpenPc.Building, OpenPc.Closing]
    | construct => simp [OpenPc.Building, OpenPc.Closing]
    | failed => simp [OpenPc.Building, OpenPc.Closing]
    | _ => exact hpc.elim
  obtain ⟨hb, hcrash, hpropose, hclosing, hend⟩ := hother
  exact ⟨fun _ => ⟨hblank, hidle⟩, fun h => absurd h hb, fun h => absurd h.building hb,
    ⟨hcrash, hpropose⟩, fun h => absurd h hclosing, fun h => absurd h hend,
    fun h => absurd (Or.inr h) hend⟩

/-- While `Open` builds the log, the memory is fresh and the threads are starting. -/
theorem Client.Stage.of_building (hpc : pc.Building) (hfresh : c.shared.Fresh)
    (hstarting : ∀ t ∈ c.threads, t.pc.Starting) (hview : pc.Viewed → c.shared.view ≠ none)
    (hne : pc ≠ .propose .crash) : c.Stage pc := by
  have hother : ¬ pc.Unbuilt ∧ pc ≠ .crash ∧ ¬ pc.Closing ∧ ¬ (pc = .join ∨ pc = .closed) := by
    cases pc with
    | fetch => simp [OpenPc.Unbuilt, OpenPc.Closing]
    | install => simp [OpenPc.Unbuilt, OpenPc.Closing]
    | checkView => simp [OpenPc.Unbuilt, OpenPc.Closing]
    | propose => simp [OpenPc.Unbuilt, OpenPc.Closing]
    | checkStripes => simp [OpenPc.Unbuilt, OpenPc.Closing]
    | initStripe => simp [OpenPc.Unbuilt, OpenPc.Closing]
    | _ => exact hpc.elim
  obtain ⟨hu, hcrash, hclosing, hend⟩ := hother
  exact ⟨fun h => absurd h hu, fun _ => ⟨hfresh, hstarting⟩, hview, ⟨hcrash, hne⟩,
    fun h => absurd h hclosing, fun h => absurd h hend, fun h => absurd (Or.inr h) hend⟩

/-- Nothing is known of a log that is open, or about to be closed. -/
theorem Client.Stage.of_open (hpc : pc = .opened ∨ pc = .shutdownManager) : c.Stage pc := by
  rcases hpc with rfl | rfl
  · exact ⟨False.elim, False.elim, False.elim, by simp, False.elim, by simp, by simp⟩
  · exact ⟨False.elim, False.elim, False.elim, by simp, False.elim, by simp, by simp⟩

/-- While the log is closed, the shutdown flags are set one after the other. -/
theorem Client.Stage.of_closing (hpc : pc.Closing) (hmanager : c.shared.managerShutdown = true)
    (hreader : pc = .join ∨ pc = .closed → c.shared.readerShutdown = true)
    (hexited : pc = .closed → c.shared.refreshExited = true ∧ c.shared.expanderExited = true ∧
      c.shared.stripeInitExited = true) : c.Stage pc := by
  have hother : ¬ pc.Unbuilt ∧ ¬ pc.Building ∧ pc ≠ .crash ∧ pc ≠ .propose .crash := by
    cases pc with
    | shutdownReader => simp [OpenPc.Unbuilt, OpenPc.Building]
    | join => simp [OpenPc.Unbuilt, OpenPc.Building]
    | closed => simp [OpenPc.Unbuilt, OpenPc.Building]
    | _ => exact hpc.elim
  obtain ⟨hu, hb, hcrash, hpropose⟩ := hother
  exact ⟨fun h => absurd h hu, fun h => absurd h hb, fun h => absurd h.building hb,
    ⟨hcrash, hpropose⟩, fun _ => hmanager, hreader, hexited⟩

/-- A thread that has not begun is starting when the view reader does. -/
theorem Pc.Idle.starting {pc : Pc} (h : pc.Idle) : pc.Starting := by
  cases pc with
  | refresh rpc =>
    cases h
    exact RefreshPc.noConfusion
  | opener _ => trivial
  | expander epc => exact h
  | stripeInit spc => exact h
  | op r opc => exact h

/-- The opening thread takes its client from one stage to the next. -/
theorem OpenStep.stage (hs : OpenStep c.shared pc sh' pc') (h : c.Stage pc) {t' : Thread}
    (ht' : t'.pc = .opener pc') :
    Client.Stage { c with shared := sh', threads := c.threads.set tid t' } pc' := by
  have hidle : pc.Unbuilt → ∀ t ∈ c.threads.set tid t', t.pc.Idle := by
    intro hu t ht
    rcases List.mem_or_eq_of_mem_set ht with ht | rfl
    · exact (h.unbuilt hu).2 t ht
    · rw [ht']
      trivial
  have hstarting : pc.Building → ∀ t ∈ c.threads.set tid t', t.pc.Starting := by
    intro hb t ht
    rcases List.mem_or_eq_of_mem_set ht with ht | rfl
    · exact (h.building hb).2 t ht
    · rw [ht']
      trivial
  cases hs with
  | found hoid pfx => exact .of_unbuilt trivial (h.unbuilt trivial).1 (hidle trivial)
  | missing e => exact .of_unbuilt trivial (h.unbuilt trivial).1 (hidle trivial)
  | named id => exact .of_unbuilt trivial (h.unbuilt trivial).1 (hidle trivial)
  | unnamed e => exact .of_unbuilt trivial (h.unbuilt trivial).1 (hidle trivial)
  | built lb =>
    -- the view reader starts on a blank memory
    refine .of_building trivial ?_ (fun t ht => (hidle trivial t ht).starting) False.elim (by simp)
    show Shared.Fresh { c.shared with backend := some lb, readerStarted := true }
    rw [(h.unbuilt trivial).1]
    exact ⟨rfl, Option.some_ne_none lb, rfl, rfl, rfl, rfl, rfl⟩
  | fetched epoch blob =>
    exact .of_building trivial (h.building trivial).1 (hstarting trivial) False.elim (by simp)
  | kept hne =>
    exact .of_building trivial (h.building trivial).1 (hstarting trivial) (fun _ => hne) (by simp)
  | installed seqs v =>
    obtain ⟨hf, -⟩ := h.building trivial
    exact .of_building trivial ⟨hf.1, hf.2, hf.3, hf.4, hf.5, hf.6, hf.7⟩ (hstarting trivial)
      (fun _ => Option.some_ne_none v) (by simp)
  | managed =>
    obtain ⟨hf, -⟩ := h.building trivial
    exact .of_building trivial ⟨hf.1, hf.2, hf.3, hf.4, hf.5, hf.6, hf.7⟩ (hstarting trivial)
      (fun _ => h.viewed trivial) (by simp [ProposePc.enter])
  | proposing pc' hw hne =>
    obtain ⟨hf, hv⟩ := hw.fresh (h.building trivial).1
    exact .of_building trivial hf (hstarting trivial) (fun _ => hv (h.viewed trivial))
      (by simpa using hne)
  | won pc' hw hpc' =>
    obtain ⟨hf, hv⟩ := hw.fresh (h.building trivial).1
    rcases hpc' with rfl | rfl
    · exact .of_building trivial hf (hstarting trivial) (fun _ => hv (h.viewed trivial)) (by simp)
    · exact .of_open (Or.inl rfl)
  | checked pc' hpc' =>
    rcases hpc' with rfl | rfl
    · exact .of_building trivial (h.building trivial).1 (hstarting trivial)
        (fun _ => h.viewed trivial) (by simp)
    · exact .of_open (Or.inl rfl)
  | queued positions => exact .of_open (Or.inl rfl)
  | shutManager => exact .of_closing trivial rfl (by simp) (by simp)
  | shutReader => exact .of_closing trivial (h.closing trivial) (fun _ => rfl) (by simp)
  | joined hr he hi =>
    exact .of_closing trivial (h.closing trivial) (fun _ => h.joining (Or.inl rfl))
      fun _ => ⟨hr, he, hi⟩

/-- Another thread leaves the client at its stage. -/
theorem Client.Stage.other {b b' : Store} {t t' : Thread} (h : c.Stage pc) (ht : t ∈ c.threads)
    (hno : ∀ opc, t.pc ≠ .opener opc) (hmv : Moves name c t.pc b sh' t'.pc b') :
    Client.Stage { c with shared := sh', threads := c.threads.set tid t' } pc := by
  have hkeeps : Keeps c.shared sh' := (hmv.lands (Pc.move_access t.pc)).keeps
  -- while the log is being opened, the thread is the refresh thread
  have hrefresh : pc.Building → sh'.Fresh ∧ (c.shared.view ≠ none → sh'.view ≠ none) ∧
      t'.pc.Starting := by
    intro hb
    obtain ⟨hf, hst⟩ := h.building hb
    rcases Pc.move_starting name hf (hst t ht) with ⟨opc, hpc⟩ | ⟨rpc, hpc⟩ | hnone
    · exact absurd hpc (hno opc)
    · rw [hpc] at hmv
      refine hmv.lands (P := fun sh' pc' => sh'.Fresh ∧ (c.shared.view ≠ none → sh'.view ≠ none) ∧
        pc'.Starting) ?_
      simp only [Pc.move]
      split
      · trivial
      · exact Lands.map (refreshEntry_fresh hf)
    · exact absurd hnone hmv.ne_none
  refine ⟨fun hu => ?_, fun hb => ⟨(hrefresh hb).1, fun x hx => ?_⟩,
    fun hv => (hrefresh hv.building).2.1 (h.viewed hv), h.sound,
    fun hc => hkeeps.managerShutdown (h.closing hc),
    fun hj => hkeeps.readerShutdown (h.joining hj), fun hc => ?_⟩
  · obtain ⟨hsh, hidle⟩ := h.unbuilt hu
    rcases Pc.move_idle name hsh (hidle t ht) with ⟨opc, hpc⟩ | hnone
    · exact absurd hpc (hno opc)
    · exact absurd hnone hmv.ne_none
  · rcases List.mem_or_eq_of_mem_set hx with hx | rfl
    · exact (h.building hb).2 x hx
    · exact (hrefresh hb).2.2
  · obtain ⟨hr, he, hi⟩ := h.closed hc
    exact ⟨hkeeps.refreshExited hr, hkeeps.expanderExited he, hkeeps.stripeInitExited hi⟩

/-! ## Assertions -/

/-- The assertions of `refresh_view`. -/
theorem installMove_ne_abort {σ : Type} {lb : LogBackend} {epoch : Nat} {blob : Fbs.View} {v : View}
    {s : σ} {vs : List View} (hd : View.decode blob = .ok v) (hlb : sh.backend = some lb)
    (hseq : SeqOk vs sh) (hle : ∀ curr, sh.view = some curr → curr.epoch ≤ epoch) :
    installMove lb sh epoch blob s ≠ .abort := by
  have hattach : ∃ x, attachSequencer lb sh epoch v = .ok x := by
    unfold attachSequencer
    split
    · exact ⟨_, rfl⟩
    · split
      · split
        · next curr hcurr =>
          split
          · next cfg hcfg =>
            split
            · next hown =>
              -- the current view is this client's, so it has a sequencer
              rw [hseq.own curr hcurr ⟨cfg, hcfg, lb, hlb, hown.1⟩]
              exact ⟨_, rfl⟩
            · exact ⟨_, rfl⟩
          · exact ⟨_, rfl⟩
        · exact ⟨_, rfl⟩
      · exact ⟨_, rfl⟩
  obtain ⟨⟨seqs, seq⟩, hattach⟩ := hattach
  have hinstall : ∃ sh', installView lb sh epoch v = .ok sh' := by
    simp only [installView, hattach]
    split
    · exact ⟨_, rfl⟩
    · next curr hcurr =>
      rw [if_neg (Nat.not_lt.mpr (hle curr hcurr))]
      split
      · exact ⟨_, rfl⟩
      · exact ⟨_, rfl⟩
  obtain ⟨sh', hinstall⟩ := hinstall
  simp [installMove, hd, hinstall]

theorem map_ne_abort {σ τ : Type} {f : σ → τ} {m : Option (Move σ)} (h : m ≠ some .abort) :
    m.map (Move.map f) ≠ some .abort := by
  cases m with
  | none => simp
  | some m =>
    cases m with
    | backend call next => simp [Move.map]
    | memory sh s => simp [Move.map]
    | abort => exact absurd rfl h

theorem withView_ne_abort {σ : Type} {k : VersionedView → Move σ} (hv : sh.view ≠ none)
    (h : ∀ v, k v ≠ .abort) : sh.withView k ≠ some .abort := by
  unfold Shared.withView
  split
  · next hnone => exact absurd hnone hv
  · next v _ => simpa using h v

theorem waitForNewerView_ne_abort (pc : WaitPc) : waitForNewerView sh pc ≠ some .abort := by
  cases pc with
  | enter epoch =>
    simp only [waitForNewerView]
    split <;> simp
  | blocked waiter =>
    simp only [waitForNewerView]
    split <;> simp

theorem proposeSequencer_ne_abort {lb : LogBackend} {pc : ProposePc} (hv : sh.view ≠ none)
    (hne : pc ≠ .crash) : proposeSequencer lb sh pc ≠ some .abort := by
  cases pc with
  | start retries => exact withView_ne_abort hv fun v => by simp
  | waitNew wait => exact map_ne_abort (waitForNewerView_ne_abort wait)
  | waitStale retries curr wait => exact map_ne_abort (waitForNewerView_ne_abort wait)
  | check retries curr => exact withView_ne_abort hv fun v => by simp
  | crash => exact absurd rfl hne
  | _ => simp [proposeSequencer]

/-- **No assertion fails** while the log is being opened. -/
theorem Client.Stage.ne_abort {t : Thread} (h : c.Stage pc) (hpc : pc.Unbuilt ∨ pc.Building)
    (hI : Inv u name w) (hc : c ∈ w.clients) (ht : t ∈ c.threads)
    (hseq : SeqOk (viewsOf u w.backend) c.shared) (hfetch : c.Fetches)
    (hone : ∀ opc, t.pc = .opener opc → opc = pc) : t.pc.move name c ≠ some .abort := by
  have hok := (hI.clients c hc).threads t ht
  -- an install asserts that the fetched view is not older than the current one
  have hinstall : ∀ {σ : Type} {epoch : Nat} {blob : Fbs.View} {s : σ} {lb : LogBackend},
      c.shared.backend = some lb → t.pc.fetched? = some epoch → BlobAt u w.backend epoch blob →
      installMove lb c.shared epoch blob s ≠ .abort := by
    intro σ epoch blob s lb hlb he hb
    obtain ⟨v, hd, -⟩ := hb
    exact installMove_ne_abort hd hlb hseq fun curr hcurr => hfetch t ht epoch he curr hcurr
  -- an opener, the refresh thread, or a thread that cannot move
  have hcases : (∃ opc, t.pc = .opener opc) ∨ (∃ rpc, t.pc = .refresh rpc) ∨
      t.pc.move name c = none := by
    rcases hpc with hu | hb
    · obtain ⟨hsh, hidle⟩ := h.unbuilt hu
      rcases Pc.move_idle name hsh (hidle t ht) with hop | hnone
      · exact Or.inl hop
      · exact Or.inr (Or.inr hnone)
    · obtain ⟨hf, hst⟩ := h.building hb
      exact Pc.move_starting name hf (hst t ht)
  rcases hcases with ⟨opc, hopc⟩ | ⟨rpc, hrpc⟩ | hnone
  · have heq := hone opc hopc
    subst heq
    rw [hopc] at hok ⊢
    -- a stage without an assertion is closed at once
    refine map_ne_abort ?_
    cases opc with
    | fetch =>
      simp only [openEntry]
      split <;> simp
    | install epoch blob =>
      simp only [openEntry]
      split
      · simp
      · next lb hlb =>
        have hne := hinstall (s := OpenPc.checkView) hlb (by rw [hopc]; rfl) hok
        simpa using hne
    | checkView =>
      simp only [openEntry]
      split <;> simp
    | propose p =>
      simp only [openEntry]
      split
      · simp
      · -- a lost race would die here, and the stage excludes it
        refine map_ne_abort (proposeSequencer_ne_abort (h.viewed trivial) ?_)
        rintro rfl
        exact h.sound.2 rfl
    | checkStripes => exact withView_ne_abort (h.viewed trivial) fun v => by simp
    | crash => exact absurd rfl h.sound.1
    | join =>
      simp only [openEntry]
      split <;> simp
    | _ => simp [openEntry]
  · rw [hrpc] at hok ⊢
    simp only [Pc.move]
    split
    · simp
    · next lb hlb =>
      refine map_ne_abort ?_
      cases rpc with
      | idle =>
        simp only [refreshEntry]
        split
        · simp
        · split <;> simp
      | install epoch blob =>
        have hne := hinstall (s := RefreshPc.readView) hlb (by rw [hrpc]; rfl) hok
        simpa [refreshEntry] using hne
      | readView =>
        simp only [refreshEntry]
        split <;> simp
      | _ => simp [refreshEntry]
  · rw [hnone]
    simp

/-- A thread that cannot move in `propose_sequencer` waits for the refresh thread. -/
theorem proposeSequencer_stuck {lb : LogBackend} {pc : ProposePc}
    (h : proposeSequencer lb sh pc = none) :
    ∃ x, pc.wait? = some (.blocked x) ∧ x ∈ sh.refreshWaiters := by
  -- of all steps only the wait for a newer view can be disabled
  have hwait : ∀ wait, waitForNewerView sh wait = none →
      ∃ x, wait = .blocked x ∧ x ∈ sh.refreshWaiters := by
    intro wait hw
    cases wait with
    | enter epoch =>
      simp only [waitForNewerView] at hw
      split at hw <;> cases hw
    | blocked x =>
      refine ⟨x, rfl, ?_⟩
      by_contra hx
      simp only [waitForNewerView, if_neg hx] at hw
      cases hw
  -- reading the view never blocks
  have hview : ∀ k : VersionedView → Move (Next ProposePc (Ret Unit)), sh.withView k ≠ none := by
    intro k
    unfold Shared.withView
    split <;> simp
  cases pc with
  | start retries => exact absurd h (hview _)
  | check retries curr => exact absurd h (hview _)
  | waitNew wait =>
    obtain ⟨x, rfl, hx⟩ := hwait wait (Option.map_eq_none_iff.mp h)
    exact ⟨x, rfl, hx⟩
  | waitStale retries curr wait =>
    obtain ⟨x, rfl, hx⟩ := hwait wait (Option.map_eq_none_iff.mp h)
    exact ⟨x, rfl, hx⟩
  | _ => cases h

/-! ## Clean calls -/

/-- `Open` has returned. -/
def OpenPc.Returned : OpenPc → Prop
  | .opened => True
  | .failed _ => True
  | .shutdownManager => True
  | .shutdownReader => True
  | .join => True
  | .closed => True
  | _ => False

/-- What the destructors of the view manager and of the view reader assert. -/
structure Shared.Joined (sh : Shared) : Prop where
  managerShutdown : sh.managerShutdown = true
  expander : sh.expanderExited = true
  stripeInit : sh.stripeInitExited = true
  readerShutdown : sh.readerShutdown = true
  refresh : sh.refreshExited = true
  waiters : sh.refreshWaiters = []

/-- The thread waits for a newer view. -/
def Client.Waiting (c : Client) (t : Thread) : Prop :=
  ∃ x, t.pc.wait? = some (.blocked x) ∧ x ∈ c.shared.refreshWaiters

/-- The call of `Open` is clean: it runs on, or waits for the refresh thread, which runs on; when
    it fails it has built nothing; and whoever destroys the view manager has shut it down. -/
structure Client.CleanOpen (name : String) (c : Client) : Prop where
  runs : ∀ t ∈ c.threads, ∀ pc, t.pc = .opener pc → ¬ pc.Returned → c.shared.aborted = false ∧
    (t.pc.move name c ≠ none ∨ (c.Waiting t ∧
      ∃ t' ∈ c.threads, (∃ rpc, t'.pc = .refresh rpc) ∧ t'.pc.move name c ≠ none))
  failed : ∀ t ∈ c.threads, ∀ e, t.pc = .opener (.failed e) → c.shared = {}
  destroyed : ∀ t ∈ c.threads, t.pc = .opener .crash ∨ t.pc = .opener .closed → c.shared.Joined

/-- What is known of a client over a run. -/
structure Client.Opens (c : Client) : Prop where
  stage : ∀ t ∈ c.threads, ∀ pc, t.pc = .opener pc → c.Stage pc
  waiters : c.shared.refreshExited = true →
    c.shared.readerShutdown = true ∧ c.shared.refreshWaiters = []
  refresh : ∃ t ∈ c.threads, ∃ pc, t.pc = .refresh pc

theorem OpenPc.stage_cases (pc : OpenPc) (h : ¬ pc.Returned) (hne : pc ≠ .crash) :
    (pc.Unbuilt ∧ ∀ e, pc ≠ .failed e) ∨ pc.Building := by
  cases pc with
  | openLog => exact Or.inl ⟨trivial, by simp⟩
  | uniqueId => exact Or.inl ⟨trivial, by simp⟩
  | construct => exact Or.inl ⟨trivial, by simp⟩
  | crash => exact absurd rfl hne
  | _ => first | exact Or.inr trivial | exact absurd trivial h

/-- The refresh thread can move while the log is being opened. -/
theorem Shared.Fresh.refresh_moves {rpc : RefreshPc} (hf : c.shared.Fresh) (hne : rpc ≠ .exited) :
    (Pc.refresh rpc).move name c ≠ none := by
  obtain ⟨lb, hlb⟩ := Option.ne_none_iff_exists'.mp hf.backend
  simp only [Pc.move, hlb, ne_eq, Option.map_eq_none_iff]
  cases rpc with
  | idle => simp [refreshEntry, hf.started, hf.readerShutdown]
  | readView =>
    simp only [refreshEntry]
    split <;> simp
  | exited => exact absurd rfl hne
  | _ => simp [refreshEntry]

/-- An opener of a clean state can move, or it waits for its refresh thread, which can. -/
theorem Client.Opens.clean (h : c.Opens) : c.CleanOpen name := by
  refine ⟨fun t ht pc hpc hret => ?_, fun t ht e hpc => ((h.stage t ht _ hpc).unbuilt trivial).1,
    fun t ht hpc => ?_⟩
  · have hst := h.stage t ht pc hpc
    rcases pc.stage_cases hret hst.sound.1 with ⟨hu, hnf⟩ | hb
    · -- before the constructor no other thread matters
      obtain ⟨hsh, -⟩ := hst.unbuilt hu
      refine ⟨by rw [hsh], Or.inl ?_⟩
      rw [hpc]
      cases pc with
      | failed e => exact absurd rfl (hnf e)
      | openLog => simp [Pc.move, openEntry]
      | uniqueId => simp [Pc.move, openEntry]
      | construct => simp [Pc.move, openEntry]
      | _ => exact hu.elim
    · obtain ⟨hf, hthreads⟩ := hst.building hb
      refine ⟨hf.alive, ?_⟩
      obtain ⟨lb, hlb⟩ := Option.ne_none_iff_exists'.mp hf.backend
      rw [hpc]
      -- only `propose_sequencer` waits, on the refresh thread
      by_cases hnone : (Pc.opener pc).move name c = none
      · right
        have hpropose : ∃ p, pc = .propose p ∧ proposeSequencer lb c.shared p = none := by
          simp only [Pc.move, Option.map_eq_none_iff] at hnone
          cases pc with
          | propose p =>
            simp only [openEntry, hlb, Move.inside, Option.map_eq_none_iff] at hnone
            exact ⟨p, rfl, hnone⟩
          | fetch =>
            simp only [openEntry, hlb] at hnone
            cases hnone
          | install epoch blob =>
            simp only [openEntry, hlb] at hnone
            cases hnone
          | checkView =>
            simp only [openEntry] at hnone
            split at hnone <;> cases hnone
          | checkStripes =>
            simp only [openEntry, Shared.withView] at hnone
            split at hnone <;> cases hnone
          | initStripe => cases hnone
          | _ => exact hb.elim
        obtain ⟨p, rfl, hp⟩ := hpropose
        -- the refresh thread of this client is alive and wakes it
        obtain ⟨x, hx, hin⟩ := proposeSequencer_stuck hp
        obtain ⟨t', ht', rpc, hrpc⟩ := h.refresh
        refine ⟨⟨x, by rw [hpc]; exact hx, hin⟩, t', ht', ⟨rpc, hrpc⟩, ?_⟩
        have hstart := hthreads t' ht'
        rw [hrpc] at hstart ⊢
        exact hf.refresh_moves hstart
      · exact Or.inl hnone
  · rcases hpc with hpc | hpc
    · exact absurd rfl (h.stage t ht _ hpc).sound.1
    · have hst := h.stage t ht _ hpc
      obtain ⟨hr, he, hi⟩ := hst.closed rfl
      exact ⟨hst.closing trivial, he, hi, hst.joining (Or.inr rfl), hr, (h.waiters hr).2⟩

/-! ## Runs -/

/-- The thread that opens a log. -/
def Pc.opening? : Pc → Option OpenPc
  | .opener pc => some pc
  | _ => none

/-- The step does not end a call of `propose_sequencer` with `-EINTR` or `-ETIMEDOUT`. -/
def Unbeaten (w : World) : Action → Prop
  | .run cid tid => ∀ c ∈ w.clients[cid]?, ∀ t ∈ c.threads[tid]?, ∀ pc ∈ t.pc.opening?,
      ¬ pc.Beaten c.shared
  | _ => True

instance decidableUnbeaten (w : World) : (a : Action) → Decidable (Unbeaten w a)
  | .run cid tid => inferInstanceAs (Decidable (∀ c ∈ w.clients[cid]?, ∀ t ∈ c.threads[tid]?,
      ∀ pc ∈ t.pc.opening?, ¬ ∃ p ∈ pc.proposing?, p.Beaten c.shared))
  | .open .. => isTrue trivial
  | .invoke .. => isTrue trivial
  | .close _ => isTrue trivial

/-- Nobody is beaten, and no fetch of a view is overtaken. -/
def Undisturbed (w : World) (a : Action) : Prop := InOrder w a ∧ Unbeaten w a

instance decidableUndisturbed (w : World) (a : Action) : Decidable (Undisturbed w a) :=
  inferInstanceAs (Decidable (InOrder w a ∧ Unbeaten w a))

/-- A client dies only on a failed assertion of one of its threads. -/
theorem World.step_died (h : w.step a = some w') (hc : w.clients[cid]? = some c)
    (hc' : w'.clients[cid]? = some c') (ha : c.shared.aborted = false)
    (ha' : c'.shared.aborted = true) :
    ∃ (tid : Nat) (t : Thread), c.threads[tid]? = some t ∧ t.pc.move w.name c = some .abort := by
  have hcontra : ∀ d : Client, d.shared.aborted = false → w'.clients[cid]? ≠ some d := by
    rintro d hd hc₁
    rw [hc'] at hc₁
    cases hc₁
    rw [hd] at ha'
    cases ha'
  -- a step that replaces client `i` by one that is alive if the old one was
  have hset : ∀ (i : Nat) (d d' : Client), w'.clients = w.clients.set i d' →
      w.clients[i]? = some d → d'.shared.aborted = d.shared.aborted → False := by
    intro i d d' hclients hd hsame
    by_cases hi : i = cid
    · subst hi
      rw [hc] at hd
      cases hd
      refine hcontra d' (hsame.trans ha) ?_
      rw [hclients, List.getElem?_set_self (lt_of_getElem?_eq_some hc)]
    · refine hcontra c ha ?_
      rw [hclients, List.getElem?_set_ne hi]
      exact hc
  cases a with
  | «open» options host =>
    cases h
    refine absurd ?_ (hcontra c ha)
    exact (List.getElem?_append_left (lt_of_getElem?_eq_some hc)).trans hc
  | invoke i r =>
    simp only [World.step] at h
    split at h
    · cases h
    · next d hd =>
      split at h
      · cases h
        exact (hset i d _ rfl hd rfl).elim
      · cases h
  | close i =>
    simp only [World.step] at h
    split at h
    · cases h
    · next d hd =>
      split at h
      · cases h
        exact (hset i d _ rfl hd rfl).elim
      · cases h
  | run i tid =>
    obtain ⟨d, t, m, hd, -, ht, hm, rfl⟩ := World.step_run h
    cases m with
    | backend call next => exact (hset i d _ rfl hd rfl).elim
    | memory sh pc =>
      have hmv : Moves w.name d t.pc w.backend sh pc w.backend := .access sh pc hm
      exact (hset i d _ rfl hd hmv.aborted).elim
    | abort =>
      by_cases hi : i = cid
      · subst hi
        rw [hc] at hd
        cases hd
        exact ⟨tid, t, ht, hm⟩
      · refine absurd ?_ (hcontra c ha)
        simp only [World.runMove, World.setClient]
        rw [List.getElem?_set_ne hi]
        exact hc

/-- A new client. -/
theorem Client.Opens.new (options : Options) (host : Host) (created : Bool) (clock : Nat)
    {pc : OpenPc} (hu : pc.Unbuilt) :
    Client.Opens ⟨options, host, created, {}, Client.newThreads pc clock⟩ := by
  refine ⟨fun t ht pc' hpc' => ?_, (fun h => by cases h), ⟨⟨.refresh .idle, clock, none, []⟩,
    List.mem_cons_of_mem _ List.mem_cons_self, .idle, rfl⟩⟩
  · -- of the four new threads only the first is an opener
    have heq : pc' = pc := by
      simp only [Client.newThreads, List.mem_cons, List.not_mem_nil, or_false] at ht
      rcases ht with rfl | rfl | rfl | rfl
      · exact (Pc.opener.inj hpc').symm
      · cases hpc'
      · cases hpc'
      · cases hpc'
    subst heq
    have hidle : ∀ t ∈ Client.newThreads pc' clock, t.pc.Idle := by
      intro t ht
      simp only [Client.newThreads, List.mem_cons, List.not_mem_nil, or_false] at ht
      rcases ht with rfl | rfl | rfl | rfl
      · trivial
      · rfl
      · rfl
      · rfl
    -- the later stages are empty for an opener that has built nothing
    refine ⟨fun _ => ⟨rfl, hidle⟩, fun hb => ?_, fun hv => ?_, ⟨?_, ?_⟩, fun hc => ?_, ?_, ?_⟩
    · cases pc' <;> first | exact hu.elim | exact hb.elim
    · cases pc' <;> first | exact hu.elim | exact hv.elim
    · rintro rfl
      exact hu
    · rintro rfl
      exact hu
    · cases pc' <;> first | exact hu.elim | exact hc.elim
    · rintro (rfl | rfl) <;> exact hu.elim
    · rintro rfl
      exact hu.elim

/-- A step of a thread. -/
theorem Client.Opens.run {b' : Store} {sh : Shared} {t t' : Thread} (h : c.Opens)
    (hI : Inv u name w) (hlife : LifeOk c) (hc : c ∈ w.clients) (ht : c.threads[tid]? = some t)
    (hstep : PcStep u w.backend c.shared t.pc b' t'.pc)
    (hmv : Moves name c t.pc w.backend sh t'.pc b')
    (hbeaten : ∀ pc, t.pc = .opener pc → ¬ pc.Beaten c.shared) :
    Client.Opens { c with shared := sh, threads := c.threads.set tid t' } := by
  have htmem := List.mem_of_getElem? ht
  have hcok := hI.clients c hc
  have hok := hcok.threads t htmem
  have hkeeps : Keeps c.shared sh := (hmv.lands (Pc.move_access t.pc)).keeps
  refine ⟨fun x hx pc hpc => ?_, hkeeps.waiters h.waiters, ?_⟩
  · by_cases hop : ∃ opc, t.pc = .opener opc
    · -- the opening thread itself
      obtain ⟨opc, hopc⟩ := hop
      have hst := h.stage t htmem opc hopc
      rw [hopc] at hmv hok hstep
      obtain ⟨opc', ht', -⟩ := hstep
      have hos : OpenStep c.shared opc sh opc' := by
        refine hmv.gives (P := fun sh' pc' => ∀ y, pc' = .opener y → OpenStep c.shared opc sh' y)
          (Gives.map ?_) opc' ht'
        refine (openEntry_steps hI.log hcok.shared hok (hbeaten opc hopc) hst.viewed
          hst.sound.1).imp fun sh' s hs y heq => ?_
        cases heq
        exact hs
      have hx' : x = t' := by
        rcases List.mem_or_eq_of_mem_set hx with hin | rfl
        · -- there is only one such thread
          obtain ⟨i, hi⟩ := List.mem_iff_getElem?.mp hx
          have htid := hlife.others tid t opc ht hopc
          have hi0 : i = 0 := by
            by_cases hit : i = tid
            · omega
            · rw [List.getElem?_set_ne (Ne.symm hit)] at hi
              exact hlife.others i x pc hi hpc
          rw [hi0, htid, List.getElem?_set_self (htid ▸ lt_of_getElem?_eq_some ht)] at hi
          exact (Option.some.inj hi).symm
        · rfl
      subst hx'
      rw [ht'] at hpc
      cases hpc
      exact hos.stage hst ht'
    · have hno : ∀ opc, t.pc ≠ .opener opc := fun opc hopc => hop ⟨opc, hopc⟩
      rcases List.mem_or_eq_of_mem_set hx with hin | rfl
      · exact (h.stage x hin pc hpc).other htmem hno hmv
      · rw [hpc] at hstep
        obtain ⟨opc, hopc⟩ := hstep.opener
        exact absurd hopc (hno opc)
  · obtain ⟨x, hx, rpc, hrpc⟩ := h.refresh
    obtain ⟨i, hi⟩ := List.mem_iff_getElem?.mp hx
    by_cases hit : i = tid
    · subst hit
      rw [ht] at hi
      cases hi
      rw [hrpc] at hstep
      obtain ⟨rpc', ht', -⟩ := hstep
      exact ⟨t', List.mem_of_getElem? (List.getElem?_set_self (lt_of_getElem?_eq_some ht)), rpc',
        ht'⟩
    · exact ⟨x, List.mem_of_getElem? ((List.getElem?_set_ne (Ne.symm hit)).trans hi), rpc, hrpc⟩

theorem Client.Opens.step (hG : Good u name w) (hS : Sequencers u w) (hW : Watched u name w)
    (hok : Undisturbed w a) (h : ∀ (i : Nat) (c : Client), w.clients[i]? = some c → c.Opens)
    (hs : w.step a = some w') (hc' : w'.clients[cid]? = some c') : c'.Opens := by
  have hI := hG.toInv
  cases hI.client_step hs hc' with
  | same hc => exact h cid c' hc
  | fresh options host hn heq hb =>
    subst heq
    exact .new options host false w.clock trivial
  | invoked c r hc ha hopen heq hb =>
    subst heq
    obtain ⟨hst, hw, x, hx, hrx⟩ := h cid c hc
    refine ⟨fun t ht pc hpc => ?_, hw, x, List.mem_append_left _ hx, hrx⟩
    rcases List.mem_append.mp ht with ht | ht
    · -- the log is open, so nothing is known of the other threads
      obtain ⟨t₀, pc₀, ht₀, hpc₀, -⟩ := (hG.life c (List.mem_of_getElem? hc)).opener
      have hopened := (hG.life c (List.mem_of_getElem? hc)).opened hopen ht₀ hpc₀
      obtain ⟨i, hi⟩ := List.mem_iff_getElem?.mp ht
      rw [(hG.life c (List.mem_of_getElem? hc)).others i t pc hi hpc, ht₀] at hi
      cases hi
      rw [hpc₀, hopened] at hpc
      cases hpc
      exact .of_open (Or.inl rfl)
    · rw [List.mem_singleton.mp ht] at hpc
      cases hpc
  | closing c hc heq hb =>
    subst heq
    obtain ⟨hst, hw, x, hx, rpc, hrpc⟩ := h cid c hc
    refine ⟨fun t' ht' pc hpc => ?_, hw, x, ?_, rpc, hrpc⟩
    · obtain ⟨t, ht, rfl⟩ := List.mem_map.mp ht'
      split at hpc
      · cases hpc
        exact .of_open (Or.inr rfl)
      · next hno =>
        have hold := hst t ht pc hpc
        refine ⟨fun hu => ⟨(hold.unbuilt hu).1, fun y hy => ?_⟩,
          fun hbld => ⟨(hold.building hbld).1, fun y hy => ?_⟩, hold.viewed, hold.sound,
          hold.closing, hold.joining, hold.closed⟩
        · obtain ⟨z, hz, rfl⟩ := List.mem_map.mp hy
          split
          · trivial
          · exact (hold.unbuilt hu).2 z hz
        · obtain ⟨z, hz, rfl⟩ := List.mem_map.mp hy
          split
          · trivial
          · exact (hold.building hbld).2 z hz
    · refine List.mem_map.mpr ⟨x, hx, if_neg ?_⟩
      rw [hrpc]
      exact Pc.noConfusion
  | died c hc heq hb =>
    subst heq
    obtain ⟨hst, hw, hr⟩ := h cid c hc
    refine ⟨fun t ht pc hpc => ?_, hw, hr⟩
    have hold := hst t ht pc hpc
    have hcmem := List.mem_of_getElem? hc
    -- no assertion fails before the log is open
    have hdead : ¬ (pc.Unbuilt ∨ pc.Building) := by
      intro hub
      have halive : c.shared.aborted = false := by
        rcases hub with hu | hbld
        · rw [(hold.unbuilt hu).1]
        · exact (hold.building hbld).1.alive
      obtain ⟨tid, t', ht', habort⟩ := World.step_died hs hc hc' halive rfl
      rw [hI.named] at habort
      refine hold.ne_abort hub hI hcmem (List.mem_of_getElem? ht') (hS.seqs c hcmem)
        (hW.fetches cid c hc) ?_ habort
      intro opc hopc
      obtain ⟨i, hi⟩ := List.mem_iff_getElem?.mp ht
      have h0 := (hG.life c hcmem).others i t pc hi hpc
      have h0' := (hG.life c hcmem).others tid t' opc ht' hopc
      rw [h0, ← h0', ht'] at hi
      cases hi
      rw [hopc] at hpc
      exact Pc.opener.inj hpc
    exact ⟨fun hu => absurd (Or.inl hu) hdead, fun hbld => absurd (Or.inr hbld) hdead, hold.viewed,
      hold.sound, hold.closing, hold.joining, hold.closed⟩
  | ran c tid t sh pc hc ht ha heq hk hpc hmv =>
    subst heq
    subst ha
    have hcmem := List.mem_of_getElem? hc
    refine (h cid c hc).run hI (hG.life c hcmem) hcmem ht hpc hmv fun opc hopc => ?_
    exact hok.2 c hc t ht opc (by rw [hopc]; rfl)

end

end ZLog
