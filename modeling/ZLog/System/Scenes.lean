import ZLog.System.Aborts

/-!
# A thread and the refresh thread of its client

A thread that waits for a newer view needs the refresh thread of its client, and nobody else.  A
scene is what the two have before them, and its steps are steps of the world in which all other
threads are at rest.

One pass of the refresh thread installs the latest view and wakes every waiter behind it.

## Main results

- `Caller.Shows.leads`: the steps of a scene are steps of the world.
- `Caller.Knows.rests`: the refresh thread ends the pass that it is in.
- `Caller.Knows.pass`: a pass installs the latest view.
- `Caller.Waits.ends`: a thread stops waiting when a newer view is stored.
-/

namespace ZLog

/-- A step inside a function that another one called. -/
theorem Move.inside_inside {σ σ' τ ρ ρ' : Type} (goto : σ' → τ) (ret : ρ' → τ)
    (goto' : σ → Next σ' ρ') (ret' : ρ → Next σ' ρ') (m : Option (Move (Next σ ρ))) :
    Move.inside goto ret (Move.inside goto' ret' m) =
      Move.inside (fun s => Next.elim goto ret (goto' s)) (fun r => Next.elim goto ret (ret' r)) m := by
  have helim : ∀ n : Next σ ρ, Next.elim goto ret (Next.elim goto' ret' n) =
      Next.elim (fun s => Next.elim goto ret (goto' s)) (fun r => Next.elim goto ret (ret' r)) n := by
    intro n
    cases n <;> rfl
  cases m with
  | none => rfl
  | some m =>
    cases m with
    | backend call next => simp only [Move.inside, Move.map, Option.map_some, helim]
    | memory sh n => simp only [Move.inside, Move.map, Option.map_some, helim]
    | abort => rfl

/-! ## Scenes -/

/-- What the threads of a client read besides its memory. -/
structure Setting where
  name : String
  options : Options
  host : Host
  created : Bool

/-- The setting of a client on the log `name`. -/
def Client.setting (c : Client) (name : String) : Setting := ⟨name, c.options, c.host, c.created⟩

/-- What a thread and the refresh thread of its client have before them. -/
structure Scene (σ : Type) where
  backend : Store
  shared : Shared
  refresh : RefreshPc
  pc : σ

/-- The thread that takes the next step. -/
inductive Turn where
  | caller
  | refresh

def Turn.thread (tid : Nat) : Turn → Nat
  | .caller => tid
  | .refresh => 1

/-- A thread of an open client, or one that is opening the log: its control states `σ`, and the moves
    among them that leave the handle of the log alone. -/
structure Caller (σ : Type) where
  setting : Setting
  lb : LogBackend
  run : Shared → σ → Option (Move σ)
  thread : σ → Pc
  own : ∀ pc rpc, thread pc ≠ .refresh rpc
  keeps : ∀ {sh sh' : Shared} {pc pc' : σ}, run sh pc = some (.memory sh' pc') →
    sh'.backend = sh.backend ∧ sh'.aborted = sh.aborted
  moves : ∀ {c : Client} {pc : σ} {m : Move σ}, c.setting setting.name = setting →
    c.shared.backend = some lb → run c.shared pc = some m →
    (thread pc).move setting.name c = some (m.map thread)

namespace Caller

variable {σ : Type}

/-- The next step of one of the two threads; `none` when it waits. -/
def step (s : Caller σ) (d : Scene σ) : Turn → Option (Scene σ)
  | .caller =>
    match s.run d.shared d.pc with
    | some (.backend call next) =>
      some { d with backend := (d.backend.exec call).2, pc := next (d.backend.exec call).1 }
    | some (.memory sh pc) => some { d with shared := sh, pc := pc }
    | _ => none
  | .refresh =>
    match refreshEntry s.lb d.shared d.refresh with
    | some (.backend call next) =>
      some { d with backend := (d.backend.exec call).2, refresh := next (d.backend.exec call).1 }
    | some (.memory sh pc) => some { d with shared := sh, refresh := pc }
    | _ => none

/-- The scene is what a client of the world shows of its thread `tid`. -/
structure Shown (s : Caller σ) (tid : Nat) (d : Scene σ) (c : Client) : Prop where
  setting : c.setting s.setting.name = s.setting
  shared : c.shared = d.shared
  alive : d.shared.aborted = false
  handle : d.shared.backend = some s.lb
  caller : ∃ t, c.threads[tid]? = some t ∧ t.pc = s.thread d.pc
  refresh : ∃ t, c.threads[1]? = some t ∧ t.pc = .refresh d.refresh

/-- The world shows the scene. -/
structure Shows (s : Caller σ) (cid tid : Nat) (w : World) (d : Scene σ) : Prop where
  named : w.name = s.setting.name
  backend : w.backend = d.backend
  client : ∃ c, w.clients[cid]? = some c ∧ s.Shown tid d c

end Caller

section

variable {σ : Type} {u : Uuid} {name : String} {w w' : World} {s : Caller σ} {cid tid : Nat}
  {c : Client} {d d' : Scene σ} {turn : Turn}

theorem World.step_of_move {t : Thread} {m : Move Pc} (hc : w.clients[cid]? = some c)
    (halive : c.shared.aborted = false) (ht : c.threads[tid]? = some t)
    (hm : t.pc.move w.name c = some m) : w.step (.run cid tid) = some (w.runMove cid tid c t m) := by
  simp [World.step, hc, halive, ht, hm]

/-- What the two threads do to the memory of their client leaves the handle alone. -/
theorem Caller.step_handle (h : s.step d turn = some d') :
    d'.shared.backend = d.shared.backend ∧ d'.shared.aborted = d.shared.aborted := by
  cases turn with
  | caller =>
    simp only [Caller.step] at h
    split at h
    · cases h
      exact ⟨rfl, rfl⟩
    · next sh pc hm =>
      cases h
      exact s.keeps hm
    · cases h
  | refresh =>
    simp only [Caller.step] at h
    split at h
    · cases h
      exact ⟨rfl, rfl⟩
    · next sh pc hm =>
      cases h
      rcases refreshEntry_memory hm with hq | ⟨epoch, blob, -, hi⟩
      · exact ⟨hq.backend, hq.aborted⟩
      · obtain ⟨view, seqs, seq, -, -, heq⟩ := hi.view
        rw [heq]
        exact ⟨rfl, rfl⟩
    · cases h

/-- **Step lemma.**  The steps of a scene are steps of the world. -/
theorem Caller.Shows.step (h : s.Shows cid tid w d) (hs : s.step d turn = some d') :
    ∃ w', w.step (.run cid (turn.thread tid)) = some w' ∧ s.Shows cid tid w' d' := by
  obtain ⟨hname, hb, c, hc, hshown⟩ := h
  obtain ⟨hhandle, haborted⟩ := Caller.step_handle hs
  obtain ⟨t, ht, hpc⟩ := hshown.caller
  obtain ⟨t', ht', hpc'⟩ := hshown.refresh
  have halive : c.shared.aborted = false := hshown.shared ▸ hshown.alive
  have hlb : c.shared.backend = some s.lb := hshown.shared ▸ hshown.handle
  have hcset : ∀ c', (w.clients.set cid c')[cid]? = some c' :=
    fun c' => List.getElem?_set_self (lt_of_getElem?_eq_some hc)
  -- the two threads are not the same one
  have hne : tid ≠ 1 := by
    rintro rfl
    rw [ht] at ht'
    cases ht'
    exact s.own _ _ (hpc.symm.trans hpc')
  cases turn with
  | caller =>
    have hmove : ∀ m, s.run d.shared d.pc = some m → t.pc.move w.name c = some (m.map s.thread) := by
      intro m hm
      rw [hname, hpc]
      exact s.moves hshown.setting hlb (hshown.shared ▸ hm)
    have hcaller : ∀ t₁ : Thread, (c.threads.set tid t₁)[tid]? = some t₁ :=
      fun t₁ => List.getElem?_set_self (lt_of_getElem?_eq_some ht)
    have hrefresh : ∀ t₁ : Thread, (c.threads.set tid t₁)[1]? = some t' :=
      fun t₁ => (List.getElem?_set_ne hne).trans ht'
    simp only [Caller.step] at hs
    split at hs
    · next α call next hm =>
      cases hs
      refine ⟨_, World.step_of_move hc halive ht (hmove _ hm), hname, ?_, _, hcset _,
        hshown.setting, hshown.shared, hshown.alive, hshown.handle, ?_, ?_⟩
      · exact congrArg (fun b => (RAMBackend.exec b call).2) hb
      · refine ⟨_, hcaller _, ?_⟩
        show s.thread (next (w.backend.exec call).1) = _
        rw [hb]
      · exact ⟨t', hrefresh _, hpc'⟩
    · next sh pc hm =>
      cases hs
      exact ⟨_, World.step_of_move hc halive ht (hmove _ hm), hname, hb, _, hcset _,
        hshown.setting, rfl, haborted.trans hshown.alive, hhandle.trans hshown.handle,
        ⟨_, hcaller _, rfl⟩, ⟨t', hrefresh _, hpc'⟩⟩
    · cases hs
  | refresh =>
    have hmove : ∀ m, refreshEntry s.lb d.shared d.refresh = some m →
        t'.pc.move w.name c = some (m.map .refresh) := by
      intro m hm
      simp only [hpc', Pc.move, hshown.shared, hshown.handle, hm, Option.map_some]
    have hrefresh : ∀ t₁ : Thread, (c.threads.set 1 t₁)[1]? = some t₁ :=
      fun t₁ => List.getElem?_set_self (lt_of_getElem?_eq_some ht')
    have hcaller : ∀ t₁ : Thread, (c.threads.set 1 t₁)[tid]? = some t :=
      fun t₁ => (List.getElem?_set_ne (Ne.symm hne)).trans ht
    simp only [Caller.step] at hs
    split at hs
    · next α call next hm =>
      cases hs
      refine ⟨_, World.step_of_move hc halive ht' (hmove _ hm), hname, ?_, _, hcset _,
        hshown.setting, hshown.shared, hshown.alive, hshown.handle, ?_, ?_⟩
      · exact congrArg (fun b => (RAMBackend.exec b call).2) hb
      · exact ⟨t, hcaller _, hpc⟩
      · refine ⟨_, hrefresh _, ?_⟩
        show Pc.refresh (next (w.backend.exec call).1) = _
        rw [hb]
    · next sh pc hm =>
      cases hs
      exact ⟨_, World.step_of_move hc halive ht' (hmove _ hm), hname, hb, _, hcset _,
        hshown.setting, rfl, haborted.trans hshown.alive, hhandle.trans hshown.handle,
        ⟨t, hcaller _, hpc⟩, ⟨_, hrefresh _, rfl⟩⟩
    · cases hs

/-- The actions of the thread `tid` and of the refresh thread of its client. -/
def Solely (cid tid : Nat) (_ : World) (a : Action) : Prop := a = .run cid tid ∨ a = .run cid 1

/-- **Run lemma.**  The steps of a scene are a run of the world. -/
theorem Caller.Shows.leads {ok : Scene σ → Turn → Prop} {ok' : World → Action → Prop}
    {I : World → Prop} (h : s.Shows cid tid w d) (hI : I w)
    (hkeep : ∀ w a w', I w → ok' w a → w.step a = some w' → I w')
    (hok : ∀ w d turn, I w → s.Shows cid tid w d → ok d turn →
      ok' w (.run cid (turn.thread tid)))
    (hs : Lib.Run s.step ok d d') :
    ∃ w', Lib.Run World.step (fun w a => Solely cid tid w a ∧ ok' w a) w w' ∧
      s.Shows cid tid w' d' := by
  suffices hall : ∃ w', Lib.Run World.step (fun w a => Solely cid tid w a ∧ ok' w a) w w' ∧
      s.Shows cid tid w' d' ∧ I w' by
    obtain ⟨w', hrun, hshows, -⟩ := hall
    exact ⟨w', hrun, hshows⟩
  induction hs with
  | refl => exact ⟨w, .refl, h, hI⟩
  | @tail d₁ d₂ turn hrun hd hstep ih =>
    obtain ⟨w₁, hrun', hshows, hI₁⟩ := ih
    obtain ⟨w₂, hw₂, hshows'⟩ := hshows.step hstep
    have hgo := hok _ _ _ hI₁ hshows hd
    refine ⟨w₂, hrun'.tail ⟨?_, hgo⟩ hw₂, hshows', hkeep _ _ _ hI₁ hgo hw₂⟩
    cases turn with
    | caller => exact Or.inl rfl
    | refresh => exact Or.inr rfl

end

/-! ## The refresh thread -/

/-- The client has the latest view. -/
def Scene.Fresh {σ : Type} (u : Uuid) (d : Scene σ) : Prop :=
  ∃ v, d.shared.view = some v ∧ v.epoch = latestEpoch u d.backend

namespace Caller

section

variable {σ : Type} {s : Caller σ} {u : Uuid} {name : String} {d d' : Scene σ} {turn : Turn}

/-- What a pass of the refresh thread relies on. -/
structure Knows (s : Caller σ) (u : Uuid) (name : String) (d : Scene σ) : Prop where
  log : LogOk u name d.backend
  shared : SharedOk u d.backend d.shared
  seqs : SeqOk (viewsOf u d.backend) d.shared
  handle : d.shared.backend = some s.lb
  started : d.shared.readerStarted = true
  refresh : RefreshOk u d.backend d.refresh

/-- The steps of the refresh thread. -/
def Refreshes (s : Caller σ) : Scene σ → Scene σ → Prop :=
  Lib.Run s.step fun _ turn => turn = .refresh

/-- The refresh thread only reads views. -/
theorem step_refresh (hs : s.step d .refresh = some d') :
    d'.backend = d.backend ∧ d'.pc = d.pc := by
  simp only [Caller.step] at hs
  split at hs
  · next α call next hm =>
    cases hs
    have hreads : AllCalls (fun {α} (call : Call Fbs.View α) => (d.backend.exec call).2 = d.backend)
        (refreshEntry s.lb d.shared d.refresh) := refreshEntry_calls d.refresh rfl
    exact ⟨hreads α call next hm, rfl⟩
  · cases hs
    exact ⟨rfl, rfl⟩
  · cases hs

theorem Refreshes.one (hs : s.step d .refresh = some d') : s.Refreshes d d' := .single rfl hs

/-- Where a pass leaves the view that it fetched. -/
theorem installMove_epoch {σ : Type} {lb : LogBackend} {sh sh' : Shared} {epoch : Nat}
    {blob : Fbs.View} {next next' : σ} (h : installMove lb sh epoch blob next = .memory sh' next') :
    ∃ v, sh'.view = some v ∧ v.epoch = epoch := by
  unfold installMove at h
  split at h
  · cases h
  · split at h
    · cases h
    · next hi =>
      cases h
      unfold installView at hi
      simp only at hi
      split at hi
      · split at hi
        · cases hi
        · cases hi
          exact ⟨_, rfl, rfl⟩
      · next curr hcurr =>
        split at hi
        · cases hi
        · split at hi
          · next heq =>
            cases hi
            exact ⟨curr, hcurr, heq.symm⟩
          · split at hi
            · cases hi
            · cases hi
              exact ⟨_, rfl, rfl⟩

/-- The fetched view is installed, unless the refresh thread was overtaken. -/
theorem Knows.installs (h : s.Knows u name d) {epoch : Nat} {blob : Fbs.View}
    (hpc : d.refresh = .install epoch blob) (hlive : ¬ Dies d.shared (.refresh d.refresh)) :
    ∃ sh v, s.step d .refresh = some { d with shared := sh, refresh := .readView } ∧
      sh.view = some v ∧ v.epoch = epoch := by
  have hblob : BlobAt u d.backend epoch blob := by
    have hrefresh := h.refresh
    rw [hpc] at hrefresh
    exact hrefresh
  have hruns : Runs d.backend d.shared (fun sh' pc => pc = RefreshPc.readView ∧ Upholds d.shared sh')
      (some (installMove s.lb d.shared epoch blob RefreshPc.readView)) :=
    hblob.install_runs h.handle h.seqs (by rw [hpc]; rfl) hlive
  cases hm : installMove s.lb d.shared epoch blob RefreshPc.readView with
  | abort =>
    rw [hm] at hruns
    exact hruns.elim
  | backend call next =>
    exact absurd (congrArg some hm) (fun heq => installMove_calls (P := fun _ => False) _ _ _ heq)
  | memory sh pc =>
    rw [hm] at hruns
    obtain ⟨rfl, -⟩ := hruns
    obtain ⟨v, hv, hepoch⟩ := installMove_epoch hm
    refine ⟨sh, v, ?_, hv, hepoch⟩
    simp only [Caller.step, hpc, refreshEntry, hm]

/-- The end of a pass wakes the waiters behind the view of the client. -/
theorem marks (hpc : d.refresh = .readView) {v : VersionedView} (hv : d.shared.view = some v) :
    ∃ d', s.Refreshes d d' ∧ d'.refresh = .idle ∧ d'.pc = d.pc ∧ d'.backend = d.backend ∧
      d'.shared.view = some v ∧ ∀ waiter ∈ d'.shared.refreshWaiters, v.epoch ≤ waiter.epoch := by
  have hs : s.step d .refresh = some { d with refresh := .mark v.epoch } := by
    simp only [Caller.step, hpc, refreshEntry, hv]
  have hs' : s.step { d with refresh := .mark v.epoch } .refresh = some { d with
      shared := { d.shared with refreshWaiters :=
        d.shared.refreshWaiters.filter (fun w => ¬ w.epoch < v.epoch) }, refresh := .idle } := rfl
  refine ⟨_, (Refreshes.one hs).tail rfl hs', rfl, rfl, rfl, hv, ?_⟩
  intro waiter hwaiter
  have hge := (List.mem_filter.mp hwaiter).2
  simpa using hge

/-- What was fetched last is installed. -/
theorem Knows.brings (h : s.Knows u name d) (hpc : d.refresh = .fetch) :
    ∃ d', s.Refreshes d d' ∧ d'.refresh = .readView ∧ d'.pc = d.pc ∧ d'.backend = d.backend ∧
      d'.Fresh u := by
  obtain ⟨blob, hexec, hblob⟩ := h.log.exec_readViews
  rw [← (h.shared.backend s.lb h.handle).1] at hexec
  have hs : s.step d .refresh = some { d with refresh := .install (latestEpoch u d.backend) blob } := by
    simp only [Caller.step, hpc, refreshEntry, hexec]
    rfl
  have hlive : ¬ Dies d.shared (.refresh (.install (latestEpoch u d.backend) blob)) := by
    intro hdies
    cases hdies with
    | overtaken hfetched hcurr hlt =>
      cases hfetched
      have hle := (h.shared.view _ hcurr).epoch_le
      exact absurd hle (Nat.not_le_of_lt hlt)
  have h₁ : s.Knows u name { d with refresh := .install (latestEpoch u d.backend) blob } :=
    ⟨h.log, h.shared, h.seqs, h.handle, h.started, hblob⟩
  obtain ⟨sh, v, hs', hv, hepoch⟩ := h₁.installs rfl hlive
  exact ⟨_, (Refreshes.one hs).tail rfl hs', rfl, rfl, rfl, v, hv, hepoch⟩

/-- **Resting**: the refresh thread ends the pass that it is in. -/
theorem Knows.rests (h : s.Knows u name d) (hopen : d.refresh ≠ .exited)
    (hlive : ¬ Dies d.shared (.refresh d.refresh)) :
    ∃ d', s.Refreshes d d' ∧ d'.refresh = .idle ∧ d'.pc = d.pc ∧ d'.backend = d.backend := by
  -- what is left to do behind the installed view
  have hread : ∀ d₁ : Scene σ, s.Refreshes d d₁ → d₁.refresh = .readView → d₁.pc = d.pc →
      d₁.backend = d.backend → ∃ d', s.Refreshes d d' ∧ d'.refresh = .idle ∧ d'.pc = d.pc ∧
        d'.backend = d.backend := by
    intro d₁ hrun hpc hpc₁ hb
    cases hv : d₁.shared.view with
    | none =>
      have hs : s.step d₁ .refresh = some { d₁ with refresh := .idle } := by
        simp only [Caller.step, hpc, refreshEntry, hv]
      exact ⟨_, hrun.tail rfl hs, rfl, hpc₁, hb⟩
    | some v =>
      obtain ⟨d₂, hrun', hidle, hpc₂, hb₂, -, -⟩ := marks (s := s) hpc hv
      exact ⟨d₂, hrun.trans hrun', hidle, hpc₂.trans hpc₁, hb₂.trans hb⟩
  cases hpc : d.refresh with
  | idle => exact ⟨d, .refl, hpc, rfl, rfl⟩
  | fetch =>
    obtain ⟨d₁, hrun, hread₁, hpc₁, hb, -⟩ := h.brings hpc
    exact hread d₁ hrun hread₁ hpc₁ hb
  | install epoch blob =>
    obtain ⟨sh, v, hs, -, -⟩ := h.installs hpc hlive
    exact hread _ (.one hs) rfl rfl rfl
  | readView => exact hread d .refl hpc rfl rfl
  | mark epoch =>
    have hs : s.step d .refresh = some { d with
        shared := { d.shared with refreshWaiters :=
          d.shared.refreshWaiters.filter (fun w => ¬ w.epoch < epoch) }, refresh := .idle } := by
      simp only [Caller.step, hpc, refreshEntry]
    exact ⟨_, .one hs, rfl, rfl, rfl⟩
  | exited => exact absurd hpc hopen

/-- **A pass** installs the latest view and wakes every waiter behind it. -/
theorem Knows.pass (h : s.Knows u name d) (hidle : d.refresh = .idle)
    (hopen : d.shared.readerShutdown = false) :
    ∃ d', s.Refreshes d d' ∧ d'.refresh = .idle ∧ d'.pc = d.pc ∧ d'.backend = d.backend ∧
      d'.Fresh u ∧ ∀ waiter ∈ d'.shared.refreshWaiters, latestEpoch u d'.backend ≤ waiter.epoch := by
  have hs : s.step d .refresh = some { d with refresh := .fetch } := by
    simp only [Caller.step, hidle, refreshEntry, h.started, hopen]
    rfl
  have h₁ : s.Knows u name { d with refresh := .fetch } :=
    ⟨h.log, h.shared, h.seqs, h.handle, h.started, trivial⟩
  obtain ⟨d₁, hrun, hread, hpc, hb, v, hv, hepoch⟩ := h₁.brings rfl
  obtain ⟨d₂, hrun', hidle₂, hpc₂, hb₂, hv₂, hwaiters⟩ := marks (s := s) hread hv
  rw [hepoch, ← hb₂] at hwaiters
  rw [← hb₂] at hepoch
  exact ⟨d₂, ((Refreshes.one hs).trans hrun).trans hrun', hidle₂, hpc₂.trans hpc, hb₂.trans hb,
    ⟨v, hv₂, hepoch⟩, hwaiters⟩

/-! ## Waiting -/

/-- The thread waits for a newer view in the control states `K`, and goes on at `next`. -/
def Waits (s : Caller σ) (K : WaitPc → σ) (next : σ) : Prop :=
  ∀ sh pc, sh.backend = some s.lb →
    s.run sh (K pc) = Move.inside K (fun _ => next) (waitForNewerView sh pc)

/-- The steps that are allowed keep what holds of the scene, and with it what a pass relies on. -/
structure Sustains (s : Caller σ) (u : Uuid) (name : String) (ok : Scene σ → Turn → Prop)
    (I : Scene σ → Prop) : Prop where
  step : ∀ {d d' turn}, I d → ok d turn → s.step d turn = some d' → I d'
  knows : ∀ {d}, I d → s.Knows u name d

variable {ok : Scene σ → Turn → Prop} {I P : Scene σ → Prop} {K : WaitPc → σ} {next : σ}
  {pc : WaitPc}

/-- The refresh thread may run while the thread itself is at rest. -/
theorem Sustains.refreshes (hI : s.Sustains u name ok I) (h : I d) (hrun : s.Refreshes d d')
    (hok : ∀ d₁, I d₁ → d₁.pc = d.pc → ok d₁ .refresh) : Lib.Run s.step ok d d' ∧ I d' := by
  suffices hall : Lib.Run s.step ok d d' ∧ I d' ∧ d'.pc = d.pc from ⟨hall.1, hall.2.1⟩
  induction hrun with
  | refl => exact ⟨.refl, h, rfl⟩
  | @tail d₁ d₂ turn _ hturn hs ih =>
    obtain ⟨hrun, h₁, hpc⟩ := ih
    subst hturn
    have hgo := hok d₁ h₁ hpc
    exact ⟨hrun.tail hgo hs, hI.step h₁ hgo hs, (step_refresh hs).2.trans hpc⟩

/-- **Waiting ends** with the latest view in the memory, when a newer view is stored. -/
theorem Waits.ends (hK : s.Waits K next) (hI : s.Sustains u name ok I) (h : I d)
    (hidle : d.refresh = .idle) (hop : d.pc = K pc) (hnewer : pc.epoch < latestEpoch u d.backend)
    (hopen : ∀ d pc, I d → d.pc = K pc → d.shared.readerShutdown = false)
    (hok : ∀ d pc turn, I d → d.pc = K pc → ok d turn) :
    Lib.Can s.step ok
      (fun d' => I d' ∧ d'.refresh = .idle ∧ d'.pc = next ∧ d'.backend = d.backend ∧ d'.Fresh u)
      d := by
  have hblocked : ∀ (d : Scene σ) (waiter : RefreshWaiter), I d → d.refresh = .idle →
      d.pc = K (.blocked waiter) → waiter.epoch < latestEpoch u d.backend →
      Lib.Can s.step ok
        (fun d' => I d' ∧ d'.refresh = .idle ∧ d'.pc = next ∧ d'.backend = d.backend ∧ d'.Fresh u)
        d := by
    intro d waiter h hidle hop hnewer
    obtain ⟨d₁, hrun, hidle₁, hpc₁, hb₁, hfresh, hwaiters⟩ :=
      (hI.knows h).pass hidle (hopen d _ h hop)
    obtain ⟨hrun', h₁⟩ := hI.refreshes h hrun fun d₁ h₁ hpc => hok d₁ _ _ h₁ (hpc.trans hop)
    have hop₁ : d₁.pc = K (.blocked waiter) := hpc₁.trans hop
    have hwoken : waiter ∉ d₁.shared.refreshWaiters := by
      intro hmem
      have hge := hwaiters waiter hmem
      rw [hb₁] at hge
      exact absurd hnewer (Nat.not_lt_of_le hge)
    have hs : s.step d₁ .caller = some { d₁ with pc := next } := by
      simp only [Caller.step, hop₁, hK d₁.shared _ (hI.knows h₁).handle, waitForNewerView,
        if_neg hwoken]
      rfl
    have hgo : ok d₁ .caller := hok d₁ _ _ h₁ hop₁
    exact ⟨_, hrun'.tail hgo hs, hI.step h₁ hgo hs, hidle₁, rfl, hb₁, hfresh⟩
  cases pc with
  | blocked waiter => exact hblocked d waiter h hidle hop hnewer
  | enter epoch =>
    -- the thread joins the waiters first
    have hs : s.step d .caller = some { d with
        shared := { d.shared with
          refreshWaiters := d.shared.refreshWaiters ++ [⟨d.shared.nextWaiter, epoch⟩],
          nextWaiter := d.shared.nextWaiter + 1 }
        pc := K (.blocked ⟨d.shared.nextWaiter, epoch⟩) } := by
      simp only [Caller.step, hop, hK d.shared _ (hI.knows h).handle, waitForNewerView,
        hopen d _ h hop]
      rfl
    have hgo : ok d .caller := hok d _ _ h hop
    exact .next hgo hs (hblocked _ _ (hI.step h hgo hs) hidle rfl hnewer)

end

end Caller

end ZLog
