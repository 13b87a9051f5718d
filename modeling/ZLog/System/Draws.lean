import ZLog.System.Sequencers

/-!
# Positions are drawn once

`refresh_view` decides from the tokens and the epochs of two sequencer configurations, which may be
many views apart, whether the sequencer of the current view is kept.  A client proposes itself only
while it opens the log and does so once, and a configuration that was replaced never returns.  So
the client makes one sequencer, all its views that have one share it, and the counter only grows.
The counter is a `uint64_t`: once it wraps, a draw returns a position below the seed.

## Main results

- `SeqOk.attach`: the assertion in the branch that keeps the sequencer never fails.
- `drawn_once`: a client does not draw a position twice.
- `draw_wraps`: it draws a position below its seed.
-/

namespace ZLog

section

variable {u : Uuid} {name : String} {vs : List View} {sh : Shared} {w w' w₀ w₁ w₂ w₃ w₄ : World}
  {c : Client} {cid : Nat}

/-- **The assertion `view_->seq`**: a view that makes its client the sequencer has a sequencer. -/
theorem SeqOk.attach (h : SeqOk vs sh) {lb : LogBackend} (hlb : sh.backend = some lb) (epoch : Nat)
    (view : View) : ∃ seqs seq, attachSequencer lb sh epoch view = .ok (seqs, seq) := by
  unfold attachSequencer
  split
  · exact ⟨_, _, rfl⟩
  · next cfg hcfg =>
    split
    · split
      · next curr hcurr =>
        split
        · next cfg' hcfg' =>
          split
          · next hsame =>
            have hseq : curr.seq = some 0 :=
              h.own curr hcurr ⟨cfg', hcfg', lb, hlb, hsame.1⟩
            rw [hseq]
            exact ⟨_, _, rfl⟩
          · exact ⟨_, _, rfl⟩
        · exact ⟨_, _, rfl⟩
      · exact ⟨_, _, rfl⟩
    · exact ⟨_, _, rfl⟩

/-- In the step from `w` to `w'`, an append of client `cid` that works with the view `v` draws the
    position `p`: `check_tail(true)` returns `p`.  The seed of the sequencer and the draws before
    this one add up to `n`. -/
structure DrawStep (w w' : World) (cid : Nat) (v : VersionedView) (n p : Nat) : Prop where
  step : ∃ tid, w.step (.run cid tid) = some w' ∧ ∃ c t data i seq c',
    w.clients[cid]? = some c ∧ c.threads[tid]? = some t ∧
    t.pc = .op (.append data) (.sequence v i) ∧ w'.clients[cid]? = some c' ∧
    ZLog.Draws c.shared c'.shared i seq ∧ n = seq.position ∧ p = seq.tail

/-- The counter before and after a draw, and the seed of the view it goes through. -/
theorem DrawStep.counter {options : Options} {host : Host}
    (h₀ : World.init name u options host = some w₀) (h : Lib.Reaches World.step w₀ w)
    {v : VersionedView} {n p : Nat} (hd : DrawStep w w' cid v n p) :
    ∃ c c', w.clients[cid]? = some c ∧ w'.clients[cid]? = some c' ∧ n = c.shared.counter ∧
      c'.shared.counter = n + 1 ∧ p = n % 2 ^ 64 ∧ ∃ cfg, v.seqConfig = some cfg ∧
        c.shared.Owns cfg ∧ cfg.position ≤ n := by
  obtain ⟨tid, -, c, t, data, i, seq, c', hc, ht, hpc, hc', hdraw, rfl, rfl⟩ := hd.step
  have hI := (Inv.init h₀).of_reaches h
  have hO := Owners.of_reaches h₀ h
  have hS := Sequencers.of_reaches h₀ h
  have hmem := List.mem_of_getElem? hc
  have htmem := List.mem_of_getElem? ht
  obtain rfl := hS.reads c hmem t htmem _ v i hpc (Or.inl ⟨data, rfl⟩)
  have hcounter := hdraw.counter
  have hcounter' := hdraw.counter_next
  obtain ⟨cfg, hcfg, ho⟩ := (hS.appends c hmem t htmem data _ hpc).leads v rfl
  obtain ⟨-, e, v₁, cfg₁, -, -, hv₁, hcfg₁, ho₁, hle⟩ :=
    (hS.seqs c hmem).made hdraw.ne_nil
  -- the client has one configuration, so the seed of the view is that of the sequencer
  have hheld : Held u w.backend v := by
    have hok := (hI.clients c hmem).threads t htmem
    rw [hpc] at hok
    exact hok
  obtain ⟨lb, hlb, htok⟩ := ho
  obtain ⟨lb', hlb', htok'⟩ := ho₁
  obtain rfl := Option.some.inj (hlb.symm.trans hlb')
  obtain rfl := hO.own_unique hmem hlb hheld hv₁ hcfg hcfg₁ htok htok'
  exact ⟨c, c', hc, hc', hcounter.symm, hcounter', rfl, cfg, hcfg, ⟨lb, hlb, htok⟩,
    hcounter ▸ hle⟩

/-- The counter of a client only grows. -/
theorem counter_le {options : Options} {host : Host}
    (h₀ : World.init name u options host = some w₀) (h : Lib.Reaches World.step w₀ w)
    (hc : w.clients[cid]? = some c) (hr : Lib.Reaches World.step w w') :
    ∃ c', w'.clients[cid]? = some c' ∧ c.shared.counter ≤ c'.shared.counter := by
  refine hr.invariant_reaches (I := fun w' =>
    ∃ c', w'.clients[cid]? = some c' ∧ c.shared.counter ≤ c'.shared.counter) ?_ ⟨c, hc, le_refl _⟩
  rintro t a t' hrt ⟨d, hd, hle⟩ - hs
  have ht := h.trans hrt
  have hI := (Inv.init h₀).of_reaches ht
  obtain ⟨d', hd'⟩ := World.client_persists hs hd
  have hlater := (hI.client_step hs hd').later (Sequencers.of_reaches h₀ ht) hI
    (Owners.of_reaches h₀ ht) hd
  exact ⟨d', hd', le_trans hle hlater.counter⟩

/-- **Positions are drawn once**: in every reachable state, a view that a client fetches can be
    installed without violating the assertion `view_->seq`, and the client has made at most one
    sequencer, for a stored configuration of its own.  Two draws of a client less than `2 ^ 64`
    draws apart return different positions, through whatever views they go; below the wrap of the
    counter the later one returns the larger position, and no draw returns a position below the
    seed of its view. -/
theorem drawn_once {options : Options} {host : Host}
    (h₀ : World.init name u options host = some w₀) (h : Lib.Reaches World.step w₀ w) :
    (∀ c ∈ w.clients, ∀ lb, c.shared.backend = some lb → ∀ epoch view,
      ∃ seqs seq, attachSequencer lb c.shared epoch view = .ok (seqs, seq)) ∧
    (∀ c ∈ w.clients, c.shared.seqs.length ≤ 1 ∧ (c.shared.seqs ≠ [] →
      ∃ e v cfg, ViewAt (viewsOf u w.backend) e v ∧ v.seqConfig = some cfg ∧
        c.shared.Owns cfg)) ∧
    (∀ cid v n p w', DrawStep w w' cid v n p →
      (∃ cfg, v.seqConfig = some cfg ∧ (n < 2 ^ 64 → cfg.position ≤ p)) ∧
      ∀ w₁ w₂ v' m q, Lib.Reaches World.step w' w₁ → DrawStep w₁ w₂ cid v' m q →
        (m < n + 2 ^ 64 → p ≠ q) ∧ (m < 2 ^ 64 → p < q)) := by
  have hS := Sequencers.of_reaches h₀ h
  refine ⟨fun c hc lb hlb epoch view => (hS.seqs c hc).attach hlb epoch view,
    fun c hc => ⟨(hS.seqs c hc).one, fun hne => ?_⟩, fun cid v n p w' hd => ?_⟩
  · obtain ⟨-, e, v, cfg, -, -, hv, hcfg, ho, -⟩ := (hS.seqs c hc).made hne
    exact ⟨e, v, cfg, hv, hcfg, ho⟩
  · obtain ⟨c, c', -, hc', -, hcounter, hp, cfg, hcfg, -, hle⟩ := hd.counter h₀ h
    refine ⟨⟨cfg, hcfg, fun hlt => ?_⟩, fun w₁ w₂ v' m q hr hd' => ?_⟩
    · rw [hp, Nat.mod_eq_of_lt hlt]
      exact hle
    · -- the counter has moved on since the first draw
      obtain ⟨tid, hstep, -⟩ := hd.step
      have h' := h.trans (Lib.Run.single trivial hstep)
      obtain ⟨c₁, hc₁, hle₁⟩ := counter_le h₀ h' hc' hr
      obtain ⟨c₂, -, hc₂, -, hm, -, hq, -⟩ := hd'.counter h₀ (h'.trans hr)
      rw [hc₁] at hc₂
      cases hc₂
      have hnm : n < m := by omega
      constructor
      · omega
      · omega

end

namespace Sample

/-- What a thread of a client draws in a step: the seed of its view, the count and the position. -/
def drawn (cid tid : Nat) (w w' : World) : Option (Nat × Nat × Nat) :=
  w.clients[cid]?.bind fun c => c.threads[tid]?.bind fun t => w'.clients[cid]?.bind fun c' =>
    c.shared.seqs[0]?.bind fun seq =>
      match t.pc with
      | .op (.append _) (.sequence v 0) =>
        if c'.shared = { c.shared with seqs := c.shared.seqs.set 0 seq.draw } then
          v.seqConfig.map fun cfg => (cfg.position, seq.position, seq.tail)
        else none
      | _ => none

theorem drawStep {cid tid seed n p : Nat} {w w' : World} (hs : w.step (.run cid tid) = some w')
    (h : drawn cid tid w w' = some (seed, n, p)) :
    ∃ v cfg, DrawStep w w' cid v n p ∧ v.seqConfig = some cfg ∧ cfg.position = seed := by
  obtain ⟨c, hc, h⟩ := Option.bind_eq_some_iff.mp h
  obtain ⟨t, ht, h⟩ := Option.bind_eq_some_iff.mp h
  obtain ⟨c', hc', h⟩ := Option.bind_eq_some_iff.mp h
  obtain ⟨seq, hseq, h⟩ := Option.bind_eq_some_iff.mp h
  split at h
  · next data v hpc =>
    split at h
    · next hsh =>
      obtain ⟨cfg, hcfg, heq⟩ := Option.map_eq_some_iff.mp h
      cases heq
      exact ⟨v, cfg, ⟨tid, hs, c, t, data, 0, seq, c', hc, ht, hpc, hc', ⟨hseq, hsh⟩, rfl, rfl⟩,
        hcfg, rfl⟩
    · cases h
  · cases h

/-- The first append is about to draw. -/
def drawing : List Action := opened ++ .invoke 0 (.append "a") :: steps 0 4 1

/-- The first append returns, and the second one is about to draw. -/
def drawingNext : List Action := steps 0 4 2 ++ .invoke 0 (.append "b") :: steps 0 5 1

end Sample

set_option maxRecDepth 100000 in
/-- In the small log the two appends of the first client draw 0 and 1. -/
theorem drawn_once_sample :
    ∃ w w' w₁ w₂ v v', Sample.world Sample.drawing = some w ∧ DrawStep w w' 0 v 0 0 ∧
      Lib.Reaches World.step w' w₁ ∧ DrawStep w₁ w₂ 0 v' 1 1 ∧ 0 < 1 := by
  have hrun : ((Sample.world Sample.drawing).bind fun w => (w.step (.run 0 4)).bind fun w' =>
      (Lib.exec World.step w' Sample.drawingNext).bind fun w₁ =>
        (w₁.step (.run 0 5)).map fun w₂ => (Sample.drawn 0 4 w w', Sample.drawn 0 5 w₁ w₂)) =
      some (some (0, 0, 0), some (0, 1, 1)) := by decide +kernel
  obtain ⟨w, hw, hrun⟩ := Option.bind_eq_some_iff.mp hrun
  obtain ⟨w', hw', hrun⟩ := Option.bind_eq_some_iff.mp hrun
  obtain ⟨w₁, hw₁, hrun⟩ := Option.bind_eq_some_iff.mp hrun
  obtain ⟨w₂, hw₂, heq⟩ := Option.map_eq_some_iff.mp hrun
  simp only [Prod.mk.injEq] at heq
  obtain ⟨v, cfg, hd, -⟩ := Sample.drawStep hw' heq.1
  obtain ⟨v', cfg', hd', -⟩ := Sample.drawStep hw₂ heq.2
  obtain ⟨w₀, h₀, h⟩ := Sample.reaches hw
  have hreach := Lib.run_of_exec _ hw₁
  exact ⟨w, w', w₁, w₂, v, v', hw, hd, hreach, hd',
    (((drawn_once h₀ h).2.2 0 v 0 0 w' hd).2 w₁ w₂ v' 1 1 hreach hd').2 (by decide)⟩

set_option maxRecDepth 100000 in
/-- **The counter wraps**: with an entry just below the last position of the 64-bit range, the next
    client draws that position first, and then 0, which is below its seed. -/
theorem draw_wraps :
    ∃ w₀ w w' v cfg, World.init "log" Sample.uuid Sample.longOptions Sample.host = some w₀ ∧
      Lib.Reaches World.step w₀ w ∧ DrawStep w w' 1 v (2 ^ 64) 0 ∧ v.seqConfig = some cfg ∧
      cfg.position = 2 ^ 64 - 1 := by
  have hrun : ((Sample.filledTo (2 ^ 64 - 2)).bind fun w =>
      (Lib.exec World.step w (Sample.openedTwice [] ++ .invoke 1 (.append "a") :: Sample.steps 1 4 2 ++
        .invoke 1 (.append "b") :: Sample.steps 1 5 1)).bind fun w =>
        (w.step (.run 1 5)).map fun w' => Sample.drawn 1 5 w w') =
      some (some (2 ^ 64 - 1, 2 ^ 64, 0)) := by decide +kernel
  obtain ⟨w₁, hw₁, hrun⟩ := Option.bind_eq_some_iff.mp hrun
  obtain ⟨w, hw, hrun⟩ := Option.bind_eq_some_iff.mp hrun
  obtain ⟨w', hw', hd⟩ := Option.map_eq_some_iff.mp hrun
  obtain ⟨w₀, h₀, h₁⟩ := Sample.filledTo_reaches hw₁
  obtain ⟨v, cfg, hd, hcfg, hpos⟩ := Sample.drawStep hw' hd
  exact ⟨w₀, w, w', v, cfg, h₀, h₁.trans (Lib.run_of_exec _ hw), hd, hcfg, hpos⟩

end ZLog
