import ZLog.System.Sequencers

/-!
# Runs below the wrap

A position is a `uint64_t`.  A new sequencer is seeded with the maximum position plus one, and a
draw returns the value of the counter; both are the exact numbers as long as no object holds the
last position of the 64-bit range when a sequencer is proposed, and no counter is read that has
passed it.  In runs whose steps keep to that, every seed is past what was stored before it.

## Main results

- `SeedsSealed.of_run`: the objects above a seed are sealed for the epoch of its sequencer.
- `Inv.accepts_unwrapped`: nothing is stored from the seed of a new sequencer on.
-/

namespace ZLog

variable {u : Uuid} {name : String} {b b' : Store} {w w' w₀ : World} {a : Action} {c : Client}
  {t : Thread} {cid tid : Nat}

/-- The step stays below the wrap: the thread that makes it neither reads a counter that has passed
    the last position nor proposes a sequencer while an object holds that position. -/
structure Unwrapped (u : Uuid) (w : World) (a : Action) : Prop where
  counter : ∀ cid tid c t r v i seq, a = .run cid tid → w.clients[cid]? = some c →
    c.threads[tid]? = some t → t.pc = .op r (.sequence v i) → c.shared.seqs[i]? = some seq →
    seq.position < 2 ^ 64
  room : ∀ cid tid c t retries curr seed, a = .run cid tid → w.clients[cid]? = some c →
    c.threads[tid]? = some t → t.pc = .opener (.propose (.propose retries curr seed)) →
    HasRoom u w.backend

/-- A counter that is read is what `check_tail` returns. -/
theorem Unwrapped.tail (h : Unwrapped u w (.run cid tid)) (hc : w.clients[cid]? = some c)
    (ht : c.threads[tid]? = some t) {r : Request} {v : VersionedView} {i : Nat}
    (hpc : t.pc = .op r (.sequence v i)) {seq : Sequencer} (hseq : c.shared.seqs[i]? = some seq) :
    seq.tail = seq.position :=
  Nat.mod_eq_of_lt (h.counter cid tid c t r v i seq rfl hc ht hpc hseq)

/-- A draw returns the counter. -/
theorem Unwrapped.drawn (h : Unwrapped u w (.run cid tid)) (hc : w.clients[cid]? = some c)
    (ht : c.threads[tid]? = some t) {r : Request} {opc : OpPc} (hpc : t.pc = .op r opc)
    {sh' : Shared} {seq : Sequencer} {p : Nat} (hd : DrawsNext c.shared sh' opc seq p) :
    p = c.shared.counter := by
  obtain ⟨v, rfl⟩ := hd.drawing
  rw [hd.position, h.tail hc ht hpc hd.found, hd.counter]

/-! ## Seeds -/

/-- Every object of a view at or after the seed of its sequencer is sealed for its epoch. -/
def SeedsSealed (u : Uuid) (b : Store) : Prop :=
  ∀ e v cfg, ViewAt (viewsOf u b) e v → v.seqConfig = some cfg → cfg.epoch = e →
    SeedSealed u b e v cfg.position

/-- **Acceptance**: nothing is stored from the seed of a new sequencer on, and the objects there are
    sealed for its epoch. -/
theorem Inv.accepts_unwrapped (hI : Inv u name w) {e seed : Nat} (h : Accepts u w w' e seed)
    (hroom : HasRoom u w.backend) : Accepted u w w' e seed seed := by
  obtain ⟨top, hacc⟩ := hI.accepts h
  obtain rfl := hacc.seed_eq hroom
  exact hacc

/-- A step that meets the bound keeps the seeds sealed. -/
theorem SeedsSealed.step (hS : SeedsSealed u w.backend) (hI : Inv u name w) (hok : Unwrapped u w a)
    (h : w.step a = some w') : SeedsSealed u w'.backend := by
  have hgrows := (hI.step h).2.grows
  intro e v cfg hv hcfg hepoch
  cases hI.views_step h with
  | same heq =>
    rw [heq] at hv
    exact (hS e v cfg hv hcfg hepoch).mono hgrows
  | copied v₁ v' hv₁ heq hsame =>
    rw [heq] at hv
    rcases viewAt_append hv with hv | ⟨he, rfl⟩
    · exact (hS e v cfg hv hcfg hepoch).mono hgrows
    · -- a configuration that was copied is older than the view
      have hle := (hI.log.history.config _ v₁ cfg hv₁ (hsame ▸ hcfg)).2
      unfold latestEpoch at hle
      omega
  | elected cid tid c t t' lb retries curr seed v' ha hc ht hlb hpc hc' hpc' hacc heq hcfg' =>
    subst ha
    have hnew := hI.accepts_unwrapped hacc (hok.room _ _ c t retries curr seed rfl hc ht hpc)
    obtain ⟨v₁, cfg₁, hv₁, -, -, -, hsealed⟩ := hnew.stored
    have hviews := hv
    rw [heq] at hv
    rcases viewAt_append hv with hv | ⟨he, rfl⟩
    · exact (hS e v cfg hv hcfg hepoch).mono hgrows
    · rw [hcfg'] at hcfg
      cases hcfg
      obtain rfl : e = latestEpoch u w.backend + 1 := he
      rw [hviews.unique hv₁]
      exact hsealed

/-- So does a run. -/
theorem SeedsSealed.of_run {options : Options} {host : Host}
    (h₀ : World.init name u options host = some w₀)
    (h : Lib.Run World.step (Unwrapped u) w₀ w) : SeedsSealed u w.backend := by
  refine h.invariant_reaches (I := fun w => SeedsSealed u w.backend) ?_ ?_
  · intro v a v' hr hS hok hs
    exact hS.step ((Inv.init h₀).of_reaches (hr.mono fun _ _ _ => trivial)) hok hs
  · intro e v cfg hv hcfg
    obtain ⟨v₀, hviews, hnone⟩ := viewsOf_init h₀
    rw [hviews] at hv
    rw [List.mem_singleton.mp hv.mem, hnone] at hcfg
    cases hcfg

namespace Sample

/-- No position is near the wrap. -/
def Low (w : World) : Prop :=
  roomy w.backend = true ∧ ∀ c ∈ w.clients, ∀ seq ∈ c.shared.seqs, seq.position < 2 ^ 64

/-- Whether all positions are low can be computed. -/
instance (w : World) : Decidable (Low w) :=
  inferInstanceAs (Decidable (roomy w.backend = true ∧
    ∀ c ∈ w.clients, ∀ seq ∈ c.shared.seqs, seq.position < 2 ^ 64))

/-- In a world with low positions no step wraps. -/
theorem Low.unwrapped {w : World} (h : Low w) (a : Action) : Unwrapped uuid w a where
  counter _ _ c _ _ _ _ seq _ hc _ _ hseq :=
    h.2 c (List.mem_of_getElem? hc) seq (List.mem_of_getElem? hseq)
  room _ _ _ _ _ _ _ _ _ _ _ := hasRoom h.1

end Sample

end ZLog
