import ZLog.Client.World

/-!
# What threads do to the memory of their client

Most accesses leave the parts of the memory that the results about sequencers and shutdown look
at alone (`Quiet`).  The exceptions are few: installing a view, drawing a position from a
sequencer, and three steps of the opening and the closing of the log.

## Main results

- `Pc.move_memory`: the classification of all memory accesses.
-/

namespace ZLog

/-- The access leaves handles, view, sequencers and the shutdown flag alone. -/
structure Quiet (sh sh' : Shared) : Prop where
  backend : sh'.backend = sh.backend
  view : sh'.view = sh.view
  seqs : sh'.seqs = sh.seqs
  shutdown : sh'.managerShutdown = sh.managerShutdown
  aborted : sh'.aborted = sh.aborted

/-- An access that writes nothing is quiet. -/
theorem Quiet.refl (sh : Shared) : Quiet sh sh := ⟨rfl, rfl, rfl, rfl, rfl⟩

section

variable {σ τ ρ : Type} {sh sh' : Shared}

/-- All memory accesses of a move are quiet. -/
def AllQuiet (sh : Shared) (m : Option (Move σ)) : Prop :=
  ∀ sh' next, m = some (.memory sh' next) → Quiet sh sh'

/-- A thread that waits accesses nothing. -/
theorem allQuiet_none : AllQuiet sh (none : Option (Move σ)) := fun _ _ h => by cases h

theorem allQuiet_abort : AllQuiet sh (some .abort : Option (Move σ)) := fun _ _ h => by cases h

/-- A backend call does not touch the memory. -/
theorem allQuiet_backend {α : Type} (call : Call Fbs.View α) (next : α → σ) :
    AllQuiet sh (some (.backend call next)) := fun _ _ h => by cases h

/-- A move whose only access is quiet. -/
theorem Quiet.all {next : σ} (h : Quiet sh sh') : AllQuiet sh (some (.memory sh' next)) := by
  intro _ _ heq
  cases heq
  exact h

/-- Where the thread goes next does not matter. -/
theorem AllQuiet.map {f : σ → τ} {m : Option (Move σ)} (h : AllQuiet sh m) :
    AllQuiet sh (m.map (Move.map f)) := by
  intro sh' next heq
  cases m with
  | none => cases heq
  | some m =>
    cases m with
    | memory sh'' next' =>
      cases heq
      exact h _ _ rfl
    | backend => cases heq
    | abort => cases heq

/-- The accesses of a called function are those of its caller. -/
theorem AllQuiet.inside {goto : σ → τ} {ret : ρ → τ} {m : Option (Move (Next σ ρ))}
    (h : AllQuiet sh m) : AllQuiet sh (Move.inside goto ret m) := h.map

/-- Reading the view is quiet; without a view the function fails. -/
theorem AllQuiet.withView {k : VersionedView → Move σ} (h : ∀ v, AllQuiet sh (some (k v))) :
    AllQuiet sh (sh.withView k) := by
  unfold Shared.withView
  split
  · exact allQuiet_abort
  · exact h _

/-- Waiting for a view only joins and leaves the list of waiters. -/
theorem waitForNewerView_quiet (sh : Shared) (pc : WaitPc) :
    AllQuiet sh (waitForNewerView sh pc) := by
  cases pc with
  | enter epoch =>
    simp only [waitForNewerView]
    split
    · exact (Quiet.refl sh).all
    · -- it joins the list of waiters
      exact Quiet.all ⟨rfl, rfl, rfl, rfl, rfl⟩
  | blocked waiter =>
    simp only [waitForNewerView]
    split
    · exact allQuiet_none
    · exact (Quiet.refl sh).all

/-- `try_expand_view` proposes through the backend; in the memory it only queues a stripe. -/
theorem tryExpandView_quiet (options : Options) (lb : LogBackend) (position : Nat) (sh : Shared)
    (pc : ExpandPc) : AllQuiet sh (tryExpandView options lb position sh pc) := by
  cases pc with
  | start retries =>
    refine AllQuiet.withView fun curr => ?_
    split
    · exact allQuiet_abort
    · exact (Quiet.refl sh).all
    · exact (Quiet.refl sh).all
  | propose => exact allQuiet_backend _ _
  | waitNew wait => exact (waitForNewerView_quiet sh wait).inside
  -- the new stripe is queued for initialization
  | initStripe => exact Quiet.all ⟨rfl, rfl, rfl, rfl, rfl⟩
  | waitStale retries wait => exact (waitForNewerView_quiet sh wait).inside
  | checkShutdown => exact (Quiet.refl sh).all

theorem advanceMinValidPosition_quiet (lb : LogBackend) (position : Nat) (sh : Shared)
    (pc : AdvancePc) : AllQuiet sh (advanceMinValidPosition lb position sh pc) := by
  cases pc with
  | start =>
    refine AllQuiet.withView fun curr => ?_
    split
    · exact (Quiet.refl sh).all
    · exact (Quiet.refl sh).all
  | propose => exact allQuiet_backend _ _
  | wait wait => exact (waitForNewerView_quiet sh wait).inside

/-- `propose_sequencer` only reads the view. -/
theorem proposeSequencer_quiet (lb : LogBackend) (sh : Shared) (pc : ProposePc) :
    AllQuiet sh (proposeSequencer lb sh pc) := by
  cases pc with
  | start retries => exact AllQuiet.withView fun curr => (Quiet.refl sh).all
  | waitNew wait => exact (waitForNewerView_quiet sh wait).inside
  | waitStale retries curr wait => exact (waitForNewerView_quiet sh wait).inside
  | check retries curr => exact AllQuiet.withView fun updated => (Quiet.refl sh).all
  | crash => exact allQuiet_abort
  | _ => exact allQuiet_backend _ _

/-- The expander clears positions of its own queue. -/
theorem expanderEntry_quiet (options : Options) (lb : LogBackend) (sh : Shared) (pc : ExpanderPc) :
    AllQuiet sh (expanderEntry options lb sh pc) := by
  cases pc with
  | idle =>
    simp only [expanderEntry]
    split
    · exact allQuiet_none
    · split
      · exact Quiet.all ⟨rfl, rfl, rfl, rfl, rfl⟩
      · split
        · exact allQuiet_none
        · exact (Quiet.refl sh).all
  | check position =>
    refine AllQuiet.withView fun v => ?_
    split
    · exact allQuiet_abort
    · exact (Quiet.refl sh).all
    · exact (Quiet.refl sh).all
  | expand position pc => exact (tryExpandView_quiet options lb position sh pc).inside
  | clear position =>
    simp only [expanderEntry]
    split
    · exact allQuiet_abort
    · split
      · exact (Quiet.refl sh).all
      · -- the position is cleared unless a later one was asked for meanwhile
        exact Quiet.all ⟨rfl, rfl, rfl, rfl, rfl⟩
  | exited => exact allQuiet_none

theorem stripeInitEntry_quiet (lb : LogBackend) (sh : Shared) (pc : StripeInitPc) :
    AllQuiet sh (stripeInitEntry lb sh pc) := by
  cases pc with
  | idle =>
    simp only [stripeInitEntry]
    split
    · exact allQuiet_none
    · split
      · exact Quiet.all ⟨rfl, rfl, rfl, rfl, rfl⟩
      · split
        · exact allQuiet_none
        · exact Quiet.all ⟨rfl, rfl, rfl, rfl, rfl⟩
  | view position =>
    refine AllQuiet.withView fun v => ?_
    split
    · exact allQuiet_abort
    · exact (Quiet.refl sh).all
    · exact (Quiet.refl sh).all
  | «seal» => exact allQuiet_backend _ _
  | exited => exact allQuiet_none

/-! ## Installing a view -/

/-- A newer view is installed, with its sequencer. -/
structure Installs (lb : LogBackend) (sh sh' : Shared) (epoch : Nat) (blob : Fbs.View) : Prop where
  newer : ∀ curr, sh.view = some curr → curr.epoch < epoch
  view : ∃ view seqs seq, View.decode blob = .ok view ∧
    attachSequencer lb sh epoch view = .ok (seqs, seq) ∧
    sh' = { sh with seqs := seqs, view := some ⟨epoch, view, seq⟩ }

/-- The sequencer of a new view: none, the one of the current view, or a new one. -/
theorem attachSequencer_cases {lb : LogBackend} {epoch : Nat} {view : View}
    {seqs : List Sequencer} {seq : Option Nat}
    (h : attachSequencer lb sh epoch view = .ok (seqs, seq)) :
    (seqs = sh.seqs ∧ seq = none ∧
      ∀ cfg, view.seqConfig = some cfg → cfg.token ≠ lb.token) ∨
    (∃ cfg cur cfg' i, view.seqConfig = some cfg ∧ cfg.token = lb.token ∧ sh.view = some cur ∧
      cur.seqConfig = some cfg' ∧ cfg'.token = lb.token ∧ cur.seq = some i ∧ seqs = sh.seqs ∧
      seq = some i) ∨
    (∃ cfg, view.seqConfig = some cfg ∧ cfg.token = lb.token ∧
      seqs = sh.seqs ++ [⟨epoch, cfg.position⟩] ∧ seq = some sh.seqs.length ∧
      ∀ cur, sh.view = some cur → cur.seqConfig ≠ some cfg) := by
  unfold attachSequencer at h
  split at h
  · next hnone =>
    cases h
    -- the view names no sequencer
    refine Or.inl ⟨rfl, rfl, fun cfg hcfg => ?_⟩
    rw [hnone] at hcfg
    cases hcfg
  · next cfg hcfg =>
    split at h
    · next htok =>
      split at h
      · next cur hcur =>
        split at h
        · next cfg' hcfg' =>
          split at h
          · next hsame =>
            split at h
            · cases h
            · next i hi =>
              cases h
              -- same configuration as before: the sequencer is kept
              exact Or.inr (Or.inl ⟨cfg, cur, cfg', i, hcfg, htok, hcur, hcfg', hsame.1, hi, rfl,
                rfl⟩)
          · next hdiff =>
            cases h
            -- another configuration: a new sequencer starts at its position
            refine Or.inr (Or.inr ⟨cfg, hcfg, htok, rfl, rfl, fun cur' hc heq => ?_⟩)
            rw [hcur] at hc
            cases hc
            rw [hcfg'] at heq
            cases heq
            exact hdiff ⟨htok, rfl⟩
        · next hnone =>
          cases h
          refine Or.inr (Or.inr ⟨cfg, hcfg, htok, rfl, rfl, fun cur' hc heq => ?_⟩)
          rw [hcur] at hc
          cases hc
          rw [hnone] at heq
          cases heq
      · next hnone =>
        cases h
        -- the client has no view yet
        refine Or.inr (Or.inr ⟨cfg, hcfg, htok, rfl, rfl, fun cur' hc => ?_⟩)
        rw [hnone] at hc
        cases hc
    · next htok =>
      cases h
      -- the sequencer is another client's
      refine Or.inl ⟨rfl, rfl, fun cfg' hcfg' => ?_⟩
      rw [hcfg] at hcfg'
      cases hcfg'
      exact htok

/-- `refresh_view` ignores a view that is not newer, and installs one that is. -/
theorem installMove_cases {lb : LogBackend} {epoch : Nat} {blob : Fbs.View} {s next : σ}
    (h : installMove lb sh epoch blob s = .memory sh' next) :
    next = s ∧ (sh' = sh ∨ Installs lb sh sh' epoch blob) := by
  unfold installMove at h
  split at h
  · cases h
  · next view hd =>
    split at h
    · cases h
    · next sh'' hi =>
      cases h
      refine ⟨rfl, ?_⟩
      unfold installView at hi
      simp only at hi
      split at hi
      · next hnone =>
        split at hi
        · cases hi
        · next seqs seq hat =>
          cases hi
          -- the first view of the client
          refine Or.inr ⟨fun curr hc => ?_, view, seqs, seq, hd, hat, rfl⟩
          rw [hnone] at hc
          cases hc
      · next curr hcurr =>
        split at hi
        · -- an older view trips the assertion
          cases hi
        · split at hi
          · cases hi
            exact Or.inl rfl
          · split at hi
            · cases hi
            · next hlt hne _ seqs seq hat =>
              cases hi
              refine Or.inr ⟨fun curr' hc => ?_, view, seqs, seq, hd, hat, rfl⟩
              rw [hcurr] at hc
              cases hc
              omega

/-! ## Operations -/

/-- Mapping a position only reads the view. -/
theorem mapPosition_memory {v : VersionedView} {p : Nat} {pe : Option Nat} {next : OpPc}
    (h : mapPosition sh v p pe = .memory sh' next) : sh' = sh := by
  unfold mapPosition at h
  split at h
  · cases h
  · cases h
    rfl
  · cases h
    rfl
  · cases h
    rfl

theorem mapPosition_quiet (sh : Shared) (v : VersionedView) (p : Nat) (pe : Option Nat) :
    AllQuiet sh (some (mapPosition sh v p pe)) := by
  intro sh' next h
  rw [mapPosition_memory (Option.some.inj h)]
  exact .refl sh

/-- An operation that asks for an expansion only writes the expander's position. -/
theorem asyncExpandView_quiet (sh : Shared) (p : Nat) : Quiet sh (asyncExpandView sh p) := by
  unfold asyncExpandView
  split
  · exact ⟨rfl, rfl, rfl, rfl, rfl⟩
  · split
    · exact ⟨rfl, rfl, rfl, rfl, rfl⟩
    · exact .refl sh

/-- The moves that the operations share are quiet. -/
theorem commonMove_quiet (options : Options) (lb : LogBackend) (sh : Shared) (pc : OpPc) :
    AllQuiet sh (commonMove options lb sh pc) := by
  cases pc with
  | scheduleExpand => exact (asyncExpandView_quiet sh _).all
  | expand p pe pc => exact (tryExpandView_quiet options lb p sh pc).inside
  | wait p pe wait => exact (waitForNewerView_quiet sh wait).inside
  | _ => exact allQuiet_none

/-- `Read`, `Fill` and `Trim` only read the memory. -/
theorem positionOp_quiet {α : Type} (call : String → Nat → Nat → Call Fbs.View (Ret α))
    (finish : Ret α → Ret Reply) (options : Options) (lb : LogBackend) (sh : Shared) (pc : OpPc) :
    AllQuiet sh (positionOp call finish options lb sh pc) := by
  unfold positionOp
  split
  · exact AllQuiet.withView fun v => mapPosition_quiet sh v _ _
  · exact allQuiet_backend _ _
  · exact allQuiet_backend _ _
  · exact commonMove_quiet options lb sh _

/-- `CheckTail` reads the counter of the sequencer and does not move it. -/
theorem tailOp_quiet (sh : Shared) (pc : OpPc) : AllQuiet sh (tailOp sh pc) := by
  cases pc with
  | start p pe =>
    refine AllQuiet.withView fun v => ?_
    split
    · exact (Quiet.refl sh).all
    · exact (Quiet.refl sh).all
  | sequence v i =>
    simp only [tailOp]
    split
    · exact allQuiet_abort
    · exact (Quiet.refl sh).all
  | _ => exact allQuiet_none

theorem trimToOp_quiet (options : Options) (lb : LogBackend) (sh : Shared) (pc : OpPc) :
    AllQuiet sh (trimToOp options lb sh pc) := by
  unfold trimToOp
  split
  · refine AllQuiet.withView fun v => ?_
    split
    · exact (Quiet.refl sh).all
    · exact (Quiet.refl sh).all
  · exact (advanceMinValidPosition_quiet lb _ sh _).inside
  · split
    · exact allQuiet_abort
    · exact (Quiet.refl sh).all
    · exact (Quiet.refl sh).all
    · exact (Quiet.refl sh).all
  · exact allQuiet_backend _ _
  · exact allQuiet_backend _ _
  · exact commonMove_quiet options lb sh _

/-- A position is drawn from a sequencer. -/
structure Draws (sh sh' : Shared) (i : Nat) (seq : Sequencer) : Prop where
  found : sh.seqs[i]? = some seq
  shared : sh' = { sh with seqs := sh.seqs.set i seq.draw }

/-- Only a draw of an append is not quiet. -/
theorem Request.run_memory {r : Request} {options : Options} {lb : LogBackend} {pc pc' : OpPc}
    (h : r.run options lb sh pc = some (.memory sh' pc')) :
    Quiet sh sh' ∨ ∃ data v i seq, r = .append data ∧ pc = .sequence v i ∧ Draws sh sh' i seq := by
  cases r with
  | append data =>
    simp only [Request.run] at h
    unfold appendOp at h
    split at h
    · -- the view decides where the thread goes
      next p pe =>
      left
      refine AllQuiet.withView (σ := OpPc) (fun v => ?_) sh' pc' h
      split
      · exact (Quiet.refl sh).all
      · split
        · exact allQuiet_abort
        · split
          · exact mapPosition_quiet sh v p pe
          · exact (Quiet.refl sh).all
    · -- the one access that counts: `check_tail(true)` moves the counter
      next v i =>
      split at h
      · cases h
      · next seq hseq =>
        exact Or.inr ⟨data, v, i, seq, rfl, rfl, hseq, mapPosition_memory (Option.some.inj h)⟩
    · cases h
    · cases h
    · exact Or.inl (commonMove_quiet options lb sh _ sh' pc' h)
  | read p => exact Or.inl (positionOp_quiet _ _ options lb sh pc sh' pc' h)
  | fill p => exact Or.inl (positionOp_quiet _ _ options lb sh pc sh' pc' h)
  | trim p =>
    simp only [Request.run, trimOp] at h
    exact Or.inl (positionOp_quiet _ _ options lb sh pc sh' pc' h)
  | trimTo p => exact Or.inl (trimToOp_quiet options lb sh pc sh' pc' h)
  | checkTail => exact Or.inl (tailOp_quiet sh pc sh' pc' h)

/-! ## All threads -/

/-- The accesses of the refresh thread: it installs views and wakes waiters. -/
theorem refreshEntry_memory {lb : LogBackend} {pc pc' : RefreshPc}
    (h : refreshEntry lb sh pc = some (.memory sh' pc')) :
    Quiet sh sh' ∨ ∃ epoch blob, pc = .install epoch blob ∧ Installs lb sh sh' epoch blob := by
  cases pc with
  | idle =>
    simp only [refreshEntry] at h
    split at h
    · cases h
    · split at h
      · cases h
        exact Or.inl ⟨rfl, rfl, rfl, rfl, rfl⟩
      · cases h
        exact Or.inl (.refl sh)
  | fetch => cases h
  | install epoch blob =>
    obtain ⟨-, rfl | hi⟩ := installMove_cases (Option.some.inj h)
    · exact Or.inl (.refl _)
    · exact Or.inr ⟨epoch, blob, rfl, hi⟩
  | readView =>
    simp only [refreshEntry] at h
    split at h
    · cases h
      exact Or.inl (.refl sh)
    · cases h
      exact Or.inl (.refl sh)
  -- waiters leave the list, which `Quiet` does not look at
  | mark epoch =>
    cases h
    exact Or.inl ⟨rfl, rfl, rfl, rfl, rfl⟩
  | exited => cases h

/-- The accesses of the opening thread. -/
theorem openEntry_memory {name host : String} {options : Options} {created : Bool}
    {pc pc' : OpenPc} (h : openEntry name host options created sh pc = some (.memory sh' pc')) :
    Quiet sh sh' ∨
    (∃ lb epoch blob, sh.backend = some lb ∧ pc = .install epoch blob ∧
      Installs lb sh sh' epoch blob) ∨
    (∃ hoid pfx id, pc = .construct hoid pfx id ∧ pc' = .fetch ∧
      sh' = { sh with backend := some ⟨hoid, pfx, makeToken name hoid host id⟩,
                      readerStarted := true }) ∨
    (pc = .shutdownManager ∧ pc' = .shutdownReader ∧
      sh' = { sh with managerShutdown := true }) := by
  cases pc with
  -- the backend handle is set once, before the threads start
  | construct hoid pfx id =>
    cases h
    exact Or.inr (Or.inr (Or.inl ⟨hoid, pfx, id, rfl, rfl, rfl⟩))
  | fetch =>
    simp only [openEntry] at h
    split at h
    · cases h
    · cases h
  | install epoch blob =>
    simp only [openEntry] at h
    split at h
    · cases h
    · next lb hlb =>
      obtain ⟨-, rfl | hi⟩ := installMove_cases (Option.some.inj h)
      · exact Or.inl (.refl _)
      · exact Or.inr (Or.inl ⟨lb, epoch, blob, hlb, rfl, hi⟩)
  -- with a view the remaining threads start; without one the opener gives up
  | checkView =>
    simp only [openEntry] at h
    split at h
    · cases h
      exact Or.inl ⟨rfl, rfl, rfl, rfl, rfl⟩
    · cases h
      exact Or.inl ⟨rfl, rfl, rfl, rfl, rfl⟩
  | propose pc =>
    simp only [openEntry] at h
    split at h
    · cases h
    · next lb hlb => exact Or.inl ((proposeSequencer_quiet lb sh pc).inside sh' pc' h)
  | checkStripes =>
    left
    exact AllQuiet.withView (σ := OpenPc) (fun v => (Quiet.refl sh).all) sh' pc' h
  | initStripe =>
    cases h
    exact Or.inl ⟨rfl, rfl, rfl, rfl, rfl⟩
  -- the only write of the shutdown flag
  | shutdownManager =>
    cases h
    exact Or.inr (Or.inr (Or.inr ⟨rfl, rfl, rfl⟩))
  | shutdownReader =>
    cases h
    exact Or.inl ⟨rfl, rfl, rfl, rfl, rfl⟩
  | join =>
    simp only [openEntry] at h
    split at h
    · cases h
      exact Or.inl (.refl _)
    · cases h
  | _ => cases h

end

/-- A mapped move comes from a move of the same kind. -/
theorem Move.map_memory {σ τ : Type} {f : σ → τ} {m : Option (Move σ)} {sh : Shared} {next : τ}
    (h : m.map (Move.map f) = some (.memory sh next)) :
    ∃ s, m = some (.memory sh s) ∧ next = f s := by
  cases m with
  | none => cases h
  | some m =>
    cases m with
    | memory sh' s =>
      cases h
      exact ⟨s, rfl, rfl⟩
    | backend => cases h
    | abort => cases h

/-- **Memory accesses** of the threads of a client. -/
theorem Pc.move_memory {name : String} {c : Client} {pc pc' : Pc} {sh : Shared}
    (h : pc.move name c = some (.memory sh pc')) :
    Quiet c.shared sh ∨
    (∃ lb epoch blob, c.shared.backend = some lb ∧ Installs lb c.shared sh epoch blob ∧
      (pc = .refresh (.install epoch blob) ∨ pc = .opener (.install epoch blob))) ∨
    (∃ data v i seq, pc = .op (.append data) (.sequence v i) ∧ Draws c.shared sh i seq) ∨
    (∃ hoid pfx id, pc = .opener (.construct hoid pfx id) ∧ pc' = .opener .fetch ∧
      sh = { c.shared with backend := some ⟨hoid, pfx, makeToken name hoid c.host.text id⟩,
                           readerStarted := true }) ∨
    (pc = .opener .shutdownManager ∧ pc' = .opener .shutdownReader ∧
      sh = { c.shared with managerShutdown := true }) := by
  cases pc with
  | opener pc =>
    obtain ⟨s, hm, rfl⟩ := Move.map_memory h
    rcases openEntry_memory hm with hq | ⟨lb, e, blob, hlb, rfl, hi⟩ | ⟨hoid, pfx, id, rfl, rfl, rfl⟩ |
      ⟨rfl, rfl, rfl⟩
    · exact Or.inl hq
    · exact Or.inr (Or.inl ⟨lb, e, blob, hlb, hi, Or.inr rfl⟩)
    · exact Or.inr (Or.inr (Or.inr (Or.inl ⟨hoid, pfx, id, rfl, rfl, rfl⟩)))
    · exact Or.inr (Or.inr (Or.inr (Or.inr ⟨rfl, rfl, rfl⟩)))
  | refresh pc =>
    simp only [Pc.move] at h
    split at h
    · cases h
    · next lb hlb =>
      obtain ⟨s, hm, rfl⟩ := Move.map_memory h
      rcases refreshEntry_memory hm with hq | ⟨e, blob, rfl, hi⟩
      · exact Or.inl hq
      · exact Or.inr (Or.inl ⟨lb, e, blob, hlb, hi, Or.inl rfl⟩)
  | expander pc =>
    simp only [Pc.move] at h
    split at h
    · cases h
    · next lb hlb => exact Or.inl ((expanderEntry_quiet c.options lb c.shared pc).map sh pc' h)
  | stripeInit pc =>
    simp only [Pc.move] at h
    split at h
    · cases h
    · next lb hlb => exact Or.inl ((stripeInitEntry_quiet lb c.shared pc).map sh pc' h)
  | op r pc =>
    simp only [Pc.move] at h
    split at h
    · cases h
    · next lb hlb =>
      obtain ⟨s, hm, rfl⟩ := Move.map_memory h
      rcases Request.run_memory hm with hq | ⟨data, v, i, seq, rfl, rfl, hd⟩
      · exact Or.inl hq
      · exact Or.inr (Or.inr (Or.inl ⟨data, v, i, seq, rfl, hd⟩))

end ZLog
