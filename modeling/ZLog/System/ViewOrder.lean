import ZLog.Client.Waits
import ZLog.System.Owners

/-!
# The order in which views are installed

`refresh_view` fetches the latest view before it takes the lock, and two threads call it: the one
that opens the log, and the refresh thread, which is running by then.  A fetch that is overtaken by
the other thread's fetch and installation ends in the assertion that the new view is not older
than the current one.  When no thread overtakes another, views are installed in order, and a
waiter that is released finds a newer view at once and ever after.

## Main results

- `ClientStep.view_le`: the epoch of the current view never decreases.
- `view_in_order`: while no fetch is overtaken the assertion holds.
- `view_overtaken`: a run in which it fails.
-/

namespace ZLog

section

variable {u : Uuid} {name : String} {b b' : Store} {w w' w₀ : World} {a : Action} {c c' : Client}
  {cid : Nat}

/-- The current view of the client has at least this epoch. -/
def Client.Reached (c : Client) (epoch : Nat) : Prop :=
  ∃ curr, c.shared.view = some curr ∧ epoch ≤ curr.epoch

/-! ## Epochs -/

/-- A thread installs what it fetched, or leaves the view alone. -/
theorem Moves.view_cases {pc pc' : Pc} {sh : Shared} (h : Moves name c pc b sh pc' b') :
    sh.view = c.shared.view ∨ ∃ e curr, pc.fetched? = some e ∧ sh.view = some curr ∧
      curr.epoch = e ∧ ∀ old, c.shared.view = some old → old.epoch < e := by
  rcases h.memory with hq | ⟨lb, e, blob, hlb, hi, hpc⟩ | ⟨data, v, i, seq, hpc, hd⟩ |
    ⟨hoid, pfx, id, hpc, hsh⟩ | ⟨-, hsh⟩
  · exact Or.inl hq.view
  · obtain ⟨view, seqs, seq, -, -, rfl⟩ := hi.view
    refine Or.inr ⟨e, _, ?_, rfl, rfl, hi.newer⟩
    rcases hpc with rfl | rfl <;> rfl
  · rw [hd.shared]
    exact Or.inl rfl
  · rw [hsh]
    exact Or.inl rfl
  · rw [hsh]
    exact Or.inl rfl

/-- **The epoch of the current view never decreases.** -/
theorem ClientStep.view_le (hs : ClientStep u name w w' a cid c') (hc : w.clients[cid]? = some c)
    {e : Nat} (hr : c.Reached e) : c'.Reached e := by
  cases hs with
  | same hc' =>
    rw [hc] at hc'
    cases hc'
    exact hr
  | fresh options host hn =>
    rw [hc] at hn
    cases hn
  | invoked c₁ r hc' ha hopen heq hb =>
    rw [hc] at hc'
    cases hc'
    subst heq
    exact hr
  | closing c₁ hc' heq hb =>
    rw [hc] at hc'
    cases hc'
    subst heq
    exact hr
  | died c₁ hc' heq hb =>
    rw [hc] at hc'
    cases hc'
    subst heq
    exact hr
  | ran c₁ tid t sh pc hc' ht ha heq hk hpc hmv =>
    rw [hc] at hc'
    cases hc'
    subst heq
    obtain ⟨curr, hcurr, hle⟩ := hr
    -- the view is the same or a newer one
    rcases hmv.view_cases with hsame | ⟨e', curr', -, hcurr', he', hnew⟩
    · exact ⟨curr, hsame.trans hcurr, hle⟩
    · have hlt := hnew curr hcurr
      exact ⟨curr', hcurr', by omega⟩

theorem Inv.reached_step (hI : Inv u name w) (h : w.step a = some w')
    (hc : w.clients[cid]? = some c) {e : Nat} (hr : c.Reached e) :
    ∃ c', w'.clients[cid]? = some c' ∧ c'.Reached e := by
  obtain ⟨c', hc'⟩ := World.client_persists h hc
  exact ⟨c', hc', (hI.client_step h hc').view_le hc hr⟩

/-- The same over a run. -/
theorem Inv.reached {ok : World → Action → Prop} (hI : Inv u name w)
    (h : Lib.Run World.step ok w w') (hc : w.clients[cid]? = some c) {e : Nat}
    (hr : c.Reached e) : ∃ c', w'.clients[cid]? = some c' ∧ c'.Reached e := by
  have hinv : Inv u name w' ∧ ∃ c', w'.clients[cid]? = some c' ∧ c'.Reached e := by
    refine h.invariant
      (I := fun w => Inv u name w ∧ ∃ c, w.clients[cid]? = some c ∧ c.Reached e) ?_ ⟨hI, c, hc, hr⟩
    rintro v a v' ⟨hv, d, hd, hrd⟩ - hs
    exact ⟨(hv.step hs).1, hv.reached_step hs hd hrd⟩
  exact hinv.2

/-! ## Waiters -/

/-- The waits of a client: a blocked thread is on the list of waiters, or there is a newer view,
    or the log is being closed. -/
structure WaitsOk (c : Client) : Prop where
  blocked : ∀ t ∈ c.threads, ∀ x, t.pc.wait? = some (.blocked x) →
    x ∈ c.shared.refreshWaiters ∨ c.shared.readerShutdown = true ∨ c.Reached (x.epoch + 1)
  marks : ∀ t ∈ c.threads, ∀ e, t.pc = .refresh (.mark e) → c.Reached e

theorem WaitsOk.step (hw : ∀ c, w.clients[cid]? = some c → WaitsOk c)
    (hs : ClientStep u name w w' a cid c') : WaitsOk c' := by
  have hview := fun {c} hc e (hr : Client.Reached c e) => hs.view_le hc hr
  cases hs with
  | same hc => exact hw c' hc
  | fresh options host hn heq hb =>
    subst heq
    have hnone : ∀ t ∈ (Client.new options host w.clock).threads, t.pc.wait? = none ∧
        ∀ e, t.pc ≠ .refresh (.mark e) := by
      intro t ht
      simp only [Client.new, Client.newThreads, List.mem_cons, List.not_mem_nil, or_false] at ht
      rcases ht with rfl | rfl | rfl | rfl <;> exact ⟨rfl, by simp⟩
    refine ⟨fun t ht x hx => ?_, fun t ht e he => absurd he ((hnone t ht).2 e)⟩
    rw [(hnone t ht).1] at hx
    cases hx
  | invoked c r hc ha hopen heq hb =>
    subst heq
    obtain ⟨hblocked, hmarks⟩ := hw c hc
    refine ⟨fun t ht x hx => ?_, fun t ht e he => ?_⟩
    · rcases List.mem_append.mp ht with ht | ht
      · exact hblocked t ht x hx
      · rw [List.mem_singleton.mp ht] at hx
        cases r <;> cases hx
    · rcases List.mem_append.mp ht with ht | ht
      · exact hmarks t ht e he
      · rw [List.mem_singleton.mp ht] at he
        cases he
  | closing c hc heq hb =>
    subst heq
    obtain ⟨hblocked, hmarks⟩ := hw c hc
    refine ⟨fun t' ht' x hx => ?_, fun t' ht' e he => ?_⟩
    · obtain ⟨t, ht, rfl⟩ := List.mem_map.mp ht'
      split at hx
      · cases hx
      · exact hblocked t ht x hx
    · obtain ⟨t, ht, rfl⟩ := List.mem_map.mp ht'
      split at he
      · cases he
      · exact hmarks t ht e he
  | died c hc heq hb =>
    subst heq
    exact ⟨(hw c hc).blocked, (hw c hc).marks⟩
  | ran c tid t sh pc hc ht ha heq hk hpc hmv =>
    obtain ⟨hblocked, hmarks⟩ := hw c hc
    have hstep : WaitStep c.shared sh t.pc pc := hmv.lands (Pc.move_waits t.pc)
    have htmem := List.mem_of_getElem? ht
    subst heq
    have hold : ∀ x, x ∈ c.shared.refreshWaiters ∨ c.shared.readerShutdown = true ∨
          c.Reached (x.epoch + 1) →
        x ∈ sh.refreshWaiters ∨ sh.readerShutdown = true ∨ Client.Reached { c with
          shared := sh, threads := c.threads.set tid
            (t.goto w.clock pc (newEntries w.backend w'.backend)) } (x.epoch + 1) := by
      rintro x (hx | hx | hx)
      · rcases hstep.stays x hx with hx | hx | ⟨e, he, hlt⟩
        · exact Or.inl hx
        · exact Or.inr (Or.inl (hstep.shutdown hx))
        · -- the refresh thread has seen a newer view
          obtain ⟨curr, hcurr, hle⟩ := hview hc e (hmarks t htmem e he)
          exact Or.inr (Or.inr ⟨curr, hcurr, by omega⟩)
      · exact Or.inr (Or.inl (hstep.shutdown hx))
      · exact Or.inr (Or.inr (hview hc _ hx))
    refine ⟨fun t' ht' x hx => ?_, fun t' ht' e he => ?_⟩
    · rcases List.mem_or_eq_of_mem_set ht' with ht' | rfl
      · exact hold x (hblocked t' ht' x hx)
      · rcases hstep.blocked x hx with hx | hx
        · exact Or.inl hx
        · exact hold x (hblocked t htmem x hx)
    · rcases List.mem_or_eq_of_mem_set ht' with ht' | rfl
      · exact hview hc e (hmarks t' ht' e he)
      · obtain ⟨curr, hcurr, heq⟩ := hstep.marks e he
        exact hview hc e ⟨curr, hcurr, le_of_eq heq.symm⟩

/-! ## Fetches -/

/-- What is fetched is the latest view. -/
theorem Moves.fetched {pc pc' : Pc} {sh : Shared} (hl : LogOk u name b)
    (hsh : SharedOk u b c.shared) (h : Moves name c pc b sh pc' b') {e : Nat}
    (he : pc'.fetched? = some e) : e = latestEpoch u b := by
  -- the answer to a fetch is the latest view
  have hread : ∀ {lb : LogBackend}, c.shared.backend = some lb →
      ∃ blob, b.exec (.readViews lb.hoid 0 1) = (.ok [(latestEpoch u b, blob)], b) := by
    intro lb hlb
    obtain ⟨blob, hexec, -⟩ := hl.exec_readViews
    exact ⟨blob, (hsh.backend lb hlb).1 ▸ hexec⟩
  -- only a step that fetches can have fetched something
  rcases h.lands (Pc.move_fetched pc) with hn | rfl | rfl
  · rw [hn] at he
    cases he
  · cases h with
    | access sh pc' hm =>
      simp only [Pc.move, openEntry] at hm
      cases hlb : c.shared.backend <;> simp [hlb, Move.map] at hm
    | call call next hm =>
      simp only [Pc.move, openEntry] at hm
      cases hlb : c.shared.backend with
      | none => simp [hlb] at hm
      | some lb =>
        obtain ⟨blob, hexec⟩ := hread hlb
        simp only [hlb, Option.map_some, Move.map] at hm
        cases hm
        rw [hexec] at he
        exact (Option.some.inj he).symm
  · cases h with
    | access sh pc' hm =>
      simp only [Pc.move, refreshEntry] at hm
      cases hlb : c.shared.backend <;> simp [hlb, Move.map] at hm
    | call call next hm =>
      simp only [Pc.move, refreshEntry] at hm
      cases hlb : c.shared.backend with
      | none => simp [hlb] at hm
      | some lb =>
        obtain ⟨blob, hexec⟩ := hread hlb
        simp only [hlb, Option.map_some, Move.map] at hm
        cases hm
        rw [hexec] at he
        exact (Option.some.inj he).symm

/-- When a thread installs the view it fetched, no other thread of its client holds an older one. -/
def InOrder (w : World) : Action → Prop
  | .run cid tid => ∀ c ∈ w.clients[cid]?, ∀ t ∈ c.threads[tid]?, ∀ e ∈ t.pc.fetched?,
      ∀ t' ∈ c.threads, ∀ e' ∈ t'.pc.fetched?, e ≤ e'
  | _ => True

instance decidableInOrder (w : World) : (a : Action) → Decidable (InOrder w a)
  | .run cid tid => inferInstanceAs (Decidable (∀ c ∈ w.clients[cid]?, ∀ t ∈ c.threads[tid]?,
      ∀ e ∈ t.pc.fetched?, ∀ t' ∈ c.threads, ∀ e' ∈ t'.pc.fetched?, e ≤ e'))
  | .open .. => isTrue trivial
  | .invoke .. => isTrue trivial
  | .close _ => isTrue trivial

/-- The assertion of `refresh_view`: a fetched view is not older than the current one. -/
def Client.Fetches (c : Client) : Prop :=
  ∀ t ∈ c.threads, ∀ e, t.pc.fetched? = some e → ∀ curr, c.shared.view = some curr → curr.epoch ≤ e

theorem Client.Fetches.step (hI : Inv u name w) (hord : InOrder w a)
    (hf : ∀ c, w.clients[cid]? = some c → c.Fetches) (hs : ClientStep u name w w' a cid c') :
    c'.Fetches := by
  cases hs with
  | same hc => exact hf c' hc
  | fresh options host hn heq hb =>
    subst heq
    intro t ht e he curr hcurr
    cases hcurr
  | invoked c r hc ha hopen heq hb =>
    subst heq
    intro t ht e he
    rcases List.mem_append.mp ht with ht | ht
    · exact hf c hc t ht e he
    · rw [List.mem_singleton.mp ht] at he
      cases he
  | closing c hc heq hb =>
    subst heq
    intro t' ht' e he
    obtain ⟨t, ht, rfl⟩ := List.mem_map.mp ht'
    split at he
    · cases he
    · exact hf c hc t ht e he
  | died c hc heq hb =>
    subst heq
    exact hf c hc
  | ran c tid t sh pc hc ht ha heq hk hpc hmv =>
    subst heq
    have hmem := List.mem_of_getElem? hc
    have hcok := hI.clients c hmem
    have hlatest : ∀ curr, c.shared.view = some curr → curr.epoch ≤ latestEpoch u w.backend :=
      fun curr hcurr => (hcok.shared.view curr hcurr).epoch_le
    intro t' ht' e' he' curr' hcurr'
    rcases List.mem_or_eq_of_mem_set ht' with ht' | rfl
    · rcases hmv.view_cases with hsame | ⟨e, curr, he, hcurr, hep, -⟩
      · exact hf c hc t' ht' e' he' curr' (hsame ▸ hcurr')
      · -- the thread that installs is not overtaking this one
        rw [ha] at hord
        have hle := hord c hc t ht e he t' ht' e' he'
        rw [show sh.view = some curr' from hcurr'] at hcurr
        cases hcurr
        omega
    · have he := hmv.fetched hI.log hcok.shared he'
      rcases hmv.view_cases with hsame | ⟨e, curr, he₁, -, -, -⟩
      · rw [he]
        exact hlatest curr' (hsame ▸ hcurr')
      · -- a thread that installs has nothing fetched afterwards
        rcases hmv.lands (Pc.move_fetched t.pc) with hn | htpc | htpc
        · rw [show pc.fetched? = some e' from he'] at hn
          cases hn
        · rw [htpc] at he₁
          cases he₁
        · rw [htpc] at he₁
          cases he₁

/-! ## Runs -/

/-- Waits and fetches of all clients. -/
structure Watched (u : Uuid) (name : String) (w : World) : Prop extends Inv u name w where
  waits : ∀ (cid : Nat) (c : Client), w.clients[cid]? = some c → WaitsOk c
  fetches : ∀ (cid : Nat) (c : Client), w.clients[cid]? = some c → c.Fetches

theorem Watched.step (h : Watched u name w) (hord : InOrder w a) (hs : w.step a = some w') :
    Watched u name w' := by
  refine ⟨(h.toInv.step hs).1, fun cid c' hc' => ?_, fun cid c' hc' => ?_⟩
  · exact WaitsOk.step (h.waits cid) (h.toInv.client_step hs hc')
  · exact Client.Fetches.step h.toInv hord (h.fetches cid) (h.toInv.client_step hs hc')

/-- No client waits before the first view. -/
theorem Watched.init {options : Options} {host : Host}
    (h : World.init name u options host = some w) : Watched u name w := by
  have hI := Inv.init h
  obtain ⟨blob, b, -, -, rfl⟩ := World.init_eq h
  have hnone : ∀ (cid : Nat) (c : Client), [(⟨options, host, true, {},
      Client.newThreads (.uniqueId u.hoid u.pfx) 0⟩ : Client)][cid]? = some c →
      c.shared.view = none ∧ ∀ t ∈ c.threads, t.pc.wait? = none ∧
        ∀ e, t.pc ≠ .refresh (.mark e) := by
    intro cid c hc
    rw [List.mem_singleton.mp (List.mem_of_getElem? hc)]
    refine ⟨rfl, fun t ht => ?_⟩
    simp only [Client.newThreads, List.mem_cons, List.not_mem_nil, or_false] at ht
    rcases ht with rfl | rfl | rfl | rfl <;> exact ⟨rfl, by simp⟩
  refine ⟨hI, fun cid c hc => ⟨fun t ht x hx => ?_, fun t ht e he => ?_⟩, fun cid c hc => ?_⟩
  · rw [((hnone cid c hc).2 t ht).1] at hx
    cases hx
  · exact absurd he (((hnone cid c hc).2 t ht).2 e)
  · intro t ht e he curr hcurr
    rw [(hnone cid c hc).1] at hcurr
    cases hcurr

/-- **Views are installed in order**: as long as no fetch is overtaken, the assertion of
    `refresh_view` holds whenever it is evaluated, the epoch of the current view never decreases,
    and a wait that ends without a shutdown has a newer view at every later time. -/
theorem view_in_order {options : Options} {host : Host}
    (h₀ : World.init name u options host = some w₀) (h : Lib.Run World.step InOrder w₀ w) :
    (∀ c ∈ w.clients, c.Fetches) ∧
    (∀ (cid : Nat) (c : Client) (e : Nat), w.clients[cid]? = some c → c.Reached e →
      ∀ w', Lib.Run World.step InOrder w w' →
        ∃ c', w'.clients[cid]? = some c' ∧ c'.Reached e) ∧
    (∀ (cid : Nat) (c : Client) (t : Thread) (waiter : RefreshWaiter), w.clients[cid]? = some c →
      t ∈ c.threads → t.pc.wait? = some (.blocked waiter) → waiter ∉ c.shared.refreshWaiters →
      c.shared.readerShutdown = false →
      ∀ w', Lib.Run World.step InOrder w w' →
        ∃ c', w'.clients[cid]? = some c' ∧ c'.Reached (waiter.epoch + 1)) := by
  -- by the run lemma; the parts read the invariant off
  have hw : Watched u name w :=
    h.invariant (fun _ _ _ ht hord hs => ht.step hord hs) (Watched.init h₀)
  refine ⟨fun c hc => ?_, fun cid c e hc hr w' hrun => hw.toInv.reached hrun hc hr,
    fun cid c t waiter hc ht hwait hnot hshut w' hrun => ?_⟩
  · obtain ⟨cid, hcid⟩ := List.mem_iff_getElem?.mp hc
    exact hw.fetches cid c hcid
  · have hreached : c.Reached (waiter.epoch + 1) := by
      -- a waiter that is not in the list was woken by its view or by a shutdown
      rcases (hw.waits cid c hc).blocked t ht waiter hwait with hin | hin | hin
      · exact absurd hin hnot
      · rw [hshut] at hin
        cases hin
      · exact hin
    exact hw.toInv.reached hrun hc hreached

end

set_option maxRecDepth 100000 in
/-- In the small log, the refresh thread releases the first client, which waits for epoch 2. -/
theorem view_in_order_sample :
    ∃ w c, Sample.worldIf InOrder (Sample.steps 0 0 10 ++ Sample.steps 0 1 5) = some w ∧
      w.clients[0]? = some c ∧ c.Fetches ∧ c.Reached 2 := by
  have hrun : ((Sample.worldIf InOrder (Sample.steps 0 0 10 ++ Sample.steps 0 1 5)).bind fun w =>
      w.clients[0]?.bind fun c => c.threads[0]?.map fun t =>
        (t.pc.wait?, c.shared.refreshWaiters, c.shared.readerShutdown)) =
      some (some (.blocked ⟨0, 1⟩), [], false) := by decide +kernel
  obtain ⟨w, hw, hrun⟩ := Option.bind_eq_some_iff.mp hrun
  obtain ⟨c, hc, hrun⟩ := Option.bind_eq_some_iff.mp hrun
  obtain ⟨t, ht, heq⟩ := Option.map_eq_some_iff.mp hrun
  simp only [Prod.mk.injEq] at heq
  obtain ⟨hwait, hlist, hshut⟩ := heq
  obtain ⟨w₀, h₀, h⟩ := Sample.runs hw
  obtain ⟨hfetches, -, hwaits⟩ := view_in_order h₀ h
  obtain ⟨c', hc', hreached⟩ := hwaits 0 c t ⟨0, 1⟩ hc (List.mem_of_getElem? ht) hwait
    (by simp [hlist]) hshut w .refl
  rw [hc] at hc'
  cases hc'
  exact ⟨w, c, hw, hc, hfetches c (List.mem_of_getElem? hc), hreached⟩

/-- The first client fetches its first view; a second client becomes the sequencer, and the refresh
    thread of the first one installs the new view. -/
def Sample.overtaken : List Action :=
  steps 0 0 3 ++ .open options host :: steps 1 0 11 ++ steps 0 1 3

set_option maxRecDepth 100000 in
/-- **A fetch is overtaken**: the assertion of `refresh_view` fails when the opening thread installs
    what it fetched, and the process dies. -/
theorem view_overtaken :
    ∃ w₀ w w' c', World.init "log" Sample.uuid Sample.options Sample.host = some w₀ ∧
      Lib.Reaches World.step w₀ w ∧ (¬ ∀ c ∈ w.clients, c.Fetches) ∧
      w.step (.run 0 0) = some w' ∧ w'.clients[0]? = some c' ∧ c'.shared.aborted = true := by
  -- the run is evaluated: the fetched view is older than the current one
  have hrun : ((Sample.world Sample.overtaken).bind fun w => w.clients[0]?.bind fun c =>
      c.threads[0]?.map fun t => (t.pc.fetched?, c.shared.view.map VersionedView.epoch)) =
      some (some 1, some 2) := by decide +kernel
  have hdied : ((Sample.world Sample.overtaken).bind fun w => (w.step (.run 0 0)).bind fun w' =>
      w'.clients[0]?.map fun c => c.shared.aborted) = some true := by decide +kernel
  obtain ⟨w, hw, hrun⟩ := Option.bind_eq_some_iff.mp hrun
  obtain ⟨c, hc, hrun⟩ := Option.bind_eq_some_iff.mp hrun
  obtain ⟨t, ht, heq⟩ := Option.map_eq_some_iff.mp hrun
  simp only [Prod.mk.injEq] at heq
  obtain ⟨hfetched, hview⟩ := heq
  obtain ⟨curr, hcurr, hepoch⟩ := Option.map_eq_some_iff.mp hview
  rw [hw, Option.bind_some] at hdied
  obtain ⟨w', hw', hdied⟩ := Option.bind_eq_some_iff.mp hdied
  obtain ⟨c', hc', hdied⟩ := Option.map_eq_some_iff.mp hdied
  obtain ⟨w₀, h₀, h⟩ := Sample.reaches hw
  -- the assertion compares exactly these two
  refine ⟨w₀, w, w', c', h₀, h, fun hall => ?_, hw', hc', hdied⟩
  have hle := hall c (List.mem_of_getElem? hc) t (List.mem_of_getElem? ht) 1 hfetched curr hcurr
  omega

end ZLog
