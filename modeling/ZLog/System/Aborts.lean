import ZLog.System.Opens
import ZLog.Mapping.MapTo

/-!
# Where a client aborts

The code asserts that stored views read back, that a map covers what it is asked for, that a
sequencer is attached where one is used, and that an expansion is still requested while it is served.
When all clients ask for stripes within the 32-bit product and no expansion runs past the last 64-bit
position, these assertions hold in every reachable state, whatever the interleaving.

Two failures remain.  A client whose proposal failed destroys its view manager while the threads of
the view manager run; and a thread that has read a view finds that the other one has installed a
newer one.

## Main results

- `Pc.move_runs`: a move that is none of the two is no abort, and keeps what the threads rely on.
- `aborts_iff`: a client aborts exactly there.
-/

namespace ZLog

/-! ## Maps that do not fail -/

namespace ObjectMap

variable {m : ObjectMap} {options : Options}

/-- Every position maps, or is past the end of the map. -/
theorem Small.map_ok (hm : m.Small) (p : Nat) : ∃ r, m.map p = .ok r := by
  rcases Nat.lt_or_ge p m.limit with hlt | hge
  · obtain ⟨c, hc, hin⟩ := cell_of_lt hlt
    exact ⟨_, map_cell hm hc hin⟩
  · exact ⟨_, map_unmapped hge⟩

/-- Every position has a stripe, or is past the end of the map. -/
theorem Small.mapStripe_ok (hm : m.Small) (p : Nat) : ∃ r, m.mapStripe p = .ok r := by
  rcases Nat.lt_or_ge p m.limit with hlt | hge
  · obtain ⟨c, hc, hin⟩ := cell_of_lt hlt
    obtain ⟨stripe, hstripe, -⟩ := mapStripe_cell hm hc hin
    exact ⟨_, hstripe⟩
  · refine ⟨none, ?_⟩
    unfold mapStripe
    rw [findStripe_unmapped hge]

/-- The walk of `trimTo` finds every stripe it asks for. -/
theorem Small.mapTo_ok (hm : m.Small) (p k : Nat) : ∃ r, m.mapTo p k = .ok r := by
  obtain ⟨⟨oid, last⟩, hmap⟩ := hm.map_ok p
  cases oid with
  -- past the end of the map `trimTo` asks for an expansion
  | none => exact ⟨.unmapped, by simp [mapTo, hmap]⟩
  | some oid =>
    rcases Nat.lt_or_ge k m.numStripes with hlt | hge
    · have hcells : k < m.cells.length := by
        rw [m.cells_length]
        exact hlt
      exact ⟨_, mapTo_cell ⟨oid, last, hmap⟩ (List.getElem?_eq_getElem hcells)⟩
    · exact ⟨.done, by simp [mapTo, hmap, hge]⟩

/-- An expansion succeeds, and its map is within the 32-bit product again. -/
theorem Small.expandMapping_ok (hm : m.Small) (hfits : options.Fits) (p : Nat) :
    ∃ r, m.expandMapping p options = .ok r ∧ ∀ m' ∈ r, m'.Small := by
  rcases (hm.lookupOk p).expandsLeast hfits with ⟨he, -⟩ | ⟨-, m', k, he, -, -, -, hext, -⟩
  · exact ⟨none, he, by rintro _ ⟨⟩⟩
  · refine ⟨some m', he, ?_⟩
    rintro _ ⟨⟩
    exact hext.small hm hfits

end ObjectMap

/-! ## Moves that do not abort -/

/-- The move is no abort, and `P` holds of the memory and of where it ends. -/
def Runs {σ : Type} (b : Store) (sh : Shared) (P : Shared → σ → Prop) : Option (Move σ) → Prop
  | some (.memory sh' s) => P sh' s
  | some (.backend call next) => P sh (next (b.exec call).1)
  | some .abort => False
  | none => True

section

variable {σ τ ρ : Type} {b : Store} {sh sh' : Shared} {P Q : Shared → σ → Prop}

/-- A move that runs does not abort. -/
theorem Runs.ne_abort {m : Option (Move σ)} (h : Runs b sh P m) : m ≠ some .abort := by
  rintro rfl
  exact h

/-- A move that gives a result and does not abort runs. -/
theorem Gives.runs {m : Option (Move σ)} (h : Gives b sh P m) (hne : m ≠ some .abort) :
    Runs b sh P m := by
  cases m with
  | none => trivial
  | some m =>
    cases m with
    | abort => exact absurd rfl hne
    | _ => exact h

theorem Runs.imp {m : Option (Move σ)} (h : Runs b sh P m) (himp : ∀ sh s, P sh s → Q sh s) :
    Runs b sh Q m := by
  cases m with
  | none => trivial
  | some m =>
    cases m with
    -- there is none to weaken
    | abort => exact h
    | _ => exact himp _ _ h

theorem Runs.map {P : Shared → τ → Prop} {f : σ → τ} {m : Option (Move σ)}
    (h : Runs b sh (fun sh s => P sh (f s)) m) : Runs b sh P (m.map (Move.map f)) := by
  cases m with
  | none => trivial
  | some m => cases m <;> exact h

/-- The moves of a called function are moves of its caller. -/
theorem Runs.inside {P : Shared → τ → Prop} {goto : σ → τ} {ret : ρ → τ}
    {m : Option (Move (Next σ ρ))} (h : Runs b sh (fun sh s => P sh (Next.elim goto ret s)) m) :
    Runs b sh P (Move.inside goto ret m) := h.map

/-- A client that has a view reads it. -/
theorem Runs.atView {k : VersionedView → Move σ} {v : VersionedView} (hv : sh.view = some v)
    (h : Runs b sh P (some (k v))) : Runs b sh P (sh.withView k) := by
  unfold Shared.withView
  rw [hv]
  exact h

/-- A backend call runs, whatever it answers. -/
theorem Runs.backend {α : Type} {call : Call Fbs.View α} {next : α → σ}
    (h : ∀ r, P sh (next r)) : Runs b sh P (some (.backend call next)) := h _

theorem Moves.ne_abort {name : String} {c : Client} {b' : Store} {pc pc' : Pc}
    (h : Moves name c pc b sh pc' b') : pc.move name c ≠ some .abort := by
  cases h with
  | call call next hm => simp [hm]
  | access sh pc' hm => simp [hm]

/-- A step that was taken runs as its move does. -/
theorem Moves.runs {name : String} {c : Client} {P : Shared → Pc → Prop} {b' : Store} {pc pc' : Pc}
    (h : Moves name c pc b sh pc' b') (hr : Runs b c.shared P (pc.move name c)) : P sh pc' := by
  cases h with
  | call call next hm =>
    rw [hm] at hr
    exact hr
  | access sh pc' hm =>
    rw [hm] at hr
    exact hr

end

/-! ## What the threads rely on -/

/-- The memory of a client keeps what its threads rely on. -/
structure Steady (sh sh' : Shared) : Prop where
  started : sh.managerStarted = true → sh'.managerStarted = true
  viewed : (sh.managerStarted = true → sh.view ≠ none) →
    sh'.managerStarted = true → sh'.view ≠ none
  seqs : sh.seqs.length ≤ sh'.seqs.length

/-- A requested expansion stays requested too. -/
structure Upholds (sh sh' : Shared) : Prop extends Steady sh sh' where
  requested : sh.expandPos ≠ none → sh'.expandPos ≠ none

/-- The view that is about to be proposed is within the 32-bit product. -/
def SmallProposal (proposal : Option (VersionedView × View)) : Prop :=
  ∀ curr newView, proposal = some (curr, newView) → newView.objectMap.Small

/-- The view manager runs. -/
def OpenPc.Managing : OpenPc → Prop
  | .propose _ => True
  | .checkStripes => True
  | .initStripe => True
  | .opened => True
  | _ => False

/-- The expander serves a request. -/
def ExpanderPc.Serving : ExpanderPc → Prop
  | .check _ => True
  | .expand .. => True
  | .clear _ => True
  | _ => False

/-- What an operation relies on where it is. -/
structure OpPc.Backed (sh : Shared) (pc : OpPc) : Prop where
  proposal : SmallProposal pc.proposal?
  sequencer : ∀ v i, pc = .sequence v i → i < sh.seqs.length

/-- What a thread relies on where it is. -/
def Pc.Backed (sh : Shared) : Pc → Prop
  | .opener pc => (pc.Managing → sh.managerStarted = true) ∧ pc ≠ .propose .crash
  | .refresh _ => True
  | .expander pc => (pc ≠ .idle → sh.managerStarted = true) ∧ SmallProposal pc.proposal? ∧
      (pc.Serving → sh.expandPos ≠ none)
  | .stripeInit pc => pc ≠ .idle → sh.managerStarted = true
  | .op _ pc => sh.managerStarted = true ∧ pc.Backed sh

/-- The two failures. -/
inductive Dies (sh : Shared) : Pc → Prop where
  /-- The view manager is destroyed while its threads run. -/
  | destroyed : Dies sh (.opener .crash)
  /-- The other thread has installed a newer view than the one that was read. -/
  | overtaken {pc : Pc} {epoch : Nat} {curr : VersionedView} : pc.fetched? = some epoch →
      sh.view = some curr → epoch < curr.epoch → Dies sh pc

section

variable {u : Uuid} {name : String} {b : Store} {sh sh' : Shared} {options : Options}
  {lb : LogBackend} {v : VersionedView}

/-- Before the view manager starts, and when it is gone, the opening thread relies on nothing. -/
theorem Pc.Backed.unmanaged {pc : OpenPc} (h : ¬ pc.Managing) : (Pc.opener pc).Backed sh := by
  refine ⟨fun hm => absurd hm h, ?_⟩
  rintro rfl
  exact h trivial

/-- An access that leaves the flags, the view, the sequencers and the request alone. -/
theorem Upholds.of_eq (hs : sh'.managerStarted = sh.managerStarted) (hv : sh'.view = sh.view)
    (hseqs : sh'.seqs = sh.seqs) (hpos : sh'.expandPos = sh.expandPos) : Upholds sh sh' := by
  refine ⟨⟨?_, ?_, ?_⟩, ?_⟩
  · rw [hs]
    exact id
  · rw [hs, hv]
    exact id
  · rw [hseqs]
  · rw [hpos]
    exact id

theorem Upholds.refl (sh : Shared) : Upholds sh sh := .of_eq rfl rfl rfl rfl

theorem Waited.upholds (h : Waited sh sh') : Upholds sh sh' := by
  cases h with
  | same => exact .refl sh
  | joined => exact .of_eq rfl rfl rfl rfl

/-- Nothing is proposed. -/
theorem SmallProposal.none : SmallProposal none := by
  intro curr newView h
  cases h

/-- Waiting for a view never aborts. -/
theorem waitForNewerView_runs (pc : WaitPc) :
    Runs b sh (fun sh' _ => Upholds sh sh') (waitForNewerView sh pc) :=
  ((waitForNewerView_access pc).imp fun _ _ => Waited.upholds).gives.runs
    (waitForNewerView_ne_abort pc)

/-! ## The view manager -/

/-- `try_expand_view` expands a map that does not fail, and proposes one that does not fail. -/
theorem tryExpandView_runs (hv : sh.view = some v) (hsmall : v.objectMap.Small)
    (hfits : options.Fits) {position : Nat} (pc : ExpandPc) :
    Runs b sh (fun sh' s => Upholds sh sh' ∧ s.All (fun pc => SmallProposal pc.proposal?) fun _ => True)
      (tryExpandView options lb position sh pc) := by
  cases pc with
  | start retries =>
    refine Runs.atView hv ?_
    obtain ⟨r, hr, hnew⟩ := hsmall.expandMapping_ok hfits position
    have hview : v.view.expandMapping position options =
        .ok (r.map fun m => ⟨m, v.view.seqConfig⟩) := by
      unfold View.expandMapping
      rw [show v.view.objectMap.expandMapping position options = .ok r from hr]
      cases r <;> rfl
    rw [hview]
    -- already mapped: it returns at once
    cases r with
    | none => exact ⟨.refl sh, trivial⟩
    | some m =>
      refine ⟨.refl sh, ?_⟩
      rintro _ _ ⟨⟩
      exact hnew m rfl
  | propose retries curr newView =>
    -- whatever the answer, the proposal is not made again from here
    refine Runs.backend fun r => ⟨.refl sh, ?_⟩
    split
    · exact SmallProposal.none
    · exact SmallProposal.none
    · trivial
  | waitNew wait =>
    refine Runs.inside ((waitForNewerView_runs wait).imp fun sh' s h => ⟨h, ?_⟩)
    cases s with
    | goto wait => exact SmallProposal.none
    | ret r =>
      simp only [Next.elim]
      split
      · exact SmallProposal.none
      · trivial
  | initStripe => exact ⟨.of_eq rfl rfl rfl rfl, trivial⟩
  | waitStale retries wait =>
    refine Runs.inside ((waitForNewerView_runs wait).imp fun sh' s h => ⟨h, ?_⟩)
    cases s with
    | goto wait => exact SmallProposal.none
    | ret r =>
      simp only [Next.elim]
      split
      · trivial
      · exact SmallProposal.none
  | checkShutdown retries =>
    refine ⟨.refl sh, ?_⟩
    split
    · trivial
    · exact SmallProposal.none

/-- `advance_min_valid_position` keeps the stripes of the map. -/
theorem advanceMinValidPosition_runs (hv : sh.view = some v) (hsmall : v.objectMap.Small)
    {position : Nat} (pc : AdvancePc) :
    Runs b sh (fun sh' s => Upholds sh sh' ∧ s.All (fun pc => SmallProposal pc.proposal?) fun _ => True)
      (advanceMinValidPosition lb position sh pc) := by
  cases pc with
  | start =>
    refine Runs.atView hv ?_
    cases ha : v.view.advanceMinValidPosition position with
    | none => exact ⟨.refl sh, trivial⟩
    | some newView =>
      refine ⟨.refl sh, ?_⟩
      rintro _ _ ⟨⟩
      -- the map has the stripes of the old one
      unfold View.advanceMinValidPosition at ha
      split at ha
      · cases ha
      · next m hm =>
        cases ha
        obtain ⟨-, rfl⟩ := ObjectMap.advanceMinValidPosition_some hm
        exact hsmall
  | propose curr newView =>
    refine Runs.backend fun r => ⟨.refl sh, ?_⟩
    split
    · exact SmallProposal.none
    · exact SmallProposal.none
    · trivial
  | wait wait =>
    refine Runs.inside ((waitForNewerView_runs wait).imp fun sh' s h => ⟨h, ?_⟩)
    cases s with
    | goto wait => exact SmallProposal.none
    | ret r => trivial

/-- `propose_sequencer` seals and scans only stripes that exist. -/
theorem proposeSequencer_runs {pc : ProposePc} (h : LogOk u name b) (hsh : SharedOk u b sh)
    (hlb : HandleOk u lb) (hpc : ProposeOk u b pc) (hv : sh.view ≠ none) (hne : pc ≠ .crash) :
    Runs b sh (fun sh' s => Upholds sh sh' ∧ s.All (· ≠ .crash) fun _ => True)
      (proposeSequencer lb sh pc) := by
  have hup : Gives b sh (fun sh' _ => Upholds sh sh') (proposeSequencer lb sh pc) :=
    ((proposeSequencer_access pc).imp fun _ _ => Waited.upholds).gives
  refine (hup.and ?_).runs (proposeSequencer_ne_abort hv hne)
  -- another client may have been elected while this one waited
  by_cases hbeaten : pc.Beaten sh
  · cases pc with
    | check retries curr =>
      -- it gives up, or tries again
      refine Lands.gives (Lands.withView fun updated _ => ?_)
      show Next.All _ _ (if _ then _ else _)
      split
      · split
        · trivial
        · exact ProposePc.noConfusion
      · trivial
    | _ => exact absurd hbeaten id
  · refine (proposeSequencer_gives h hsh hlb hpc hbeaten).imp fun sh' s hs => ?_
    cases s with
    | goto pc => exact hs
    | ret r => trivial

/-! ## Background threads -/

/-- The expander serves a request that stays set until it takes it away. -/
theorem expanderEntry_runs (hview : sh.managerStarted = true → ∃ v, sh.view = some v ∧
    v.objectMap.Small) (hfits : options.Fits) {pc : ExpanderPc}
    (hb : (Pc.expander pc).Backed sh) :
    Runs b sh (fun sh' pc' => Steady sh sh' ∧ (Pc.expander pc').Backed sh')
      (expanderEntry options lb sh pc) := by
  obtain ⟨hstarted, -, hserving⟩ := hb
  cases pc with
  | idle =>
    simp only [expanderEntry]
    split
    · trivial
    · next hms =>
      have hms : sh.managerStarted = true := by simpa using hms
      split
      · exact ⟨⟨id, id, Nat.le_refl _⟩, fun _ => hms, SmallProposal.none, by rintro ⟨⟩⟩
      · cases hpos : sh.expandPos with
        | none => trivial
        | some position =>
          exact ⟨(Upholds.refl sh).toSteady, fun _ => hms, SmallProposal.none, fun _ => by simp [hpos]⟩
  | check position =>
    have hms := hstarted (by rintro ⟨⟩)
    -- its view maps the position, or needs an expansion
    obtain ⟨v, hv, hsmall⟩ := hview hms
    refine Runs.atView hv ?_
    obtain ⟨⟨oid, last⟩, hmap⟩ := hsmall.map_ok position
    rw [hmap]
    cases oid with
    | none => exact ⟨(Upholds.refl sh).toSteady, fun _ => hms, SmallProposal.none, hserving⟩
    | some oid => exact ⟨(Upholds.refl sh).toSteady, fun _ => hms, SmallProposal.none, hserving⟩
  | expand position pc =>
    have hms := hstarted (by rintro ⟨⟩)
    obtain ⟨v, hv, hsmall⟩ := hview hms
    refine Runs.inside ((tryExpandView_runs hv hsmall hfits pc).imp ?_)
    rintro sh' s ⟨hup, hs⟩
    refine ⟨hup.toSteady, ?_⟩
    cases s with
    -- the other threads may raise the request, never take it away
    | goto pc => exact ⟨fun _ => hup.started hms, hs, fun _ => hup.requested (hserving trivial)⟩
    | ret r => exact ⟨fun hne => absurd rfl hne, SmallProposal.none, by rintro ⟨⟩⟩
  | clear position =>
    -- the expander alone takes the request away
    obtain ⟨pos, hpos⟩ := Option.ne_none_iff_exists'.mp (hserving trivial)
    simp only [expanderEntry, hpos]
    split
    · exact ⟨(Upholds.refl sh).toSteady, fun hne => absurd rfl hne, SmallProposal.none, by rintro ⟨⟩⟩
    · exact ⟨⟨id, id, Nat.le_refl _⟩, fun hne => absurd rfl hne, SmallProposal.none, by rintro ⟨⟩⟩
  | exited => trivial

/-- The stripe initializer finds the stripe it was asked for, or nothing to do. -/
theorem stripeInitEntry_runs (hview : sh.managerStarted = true → ∃ v, sh.view = some v ∧
    v.objectMap.Small) {pc : StripeInitPc} (hb : (Pc.stripeInit pc).Backed sh) :
    Runs b sh (fun sh' pc' => Upholds sh sh' ∧ (Pc.stripeInit pc').Backed sh')
      (stripeInitEntry lb sh pc) := by
  cases pc with
  | idle =>
    simp only [stripeInitEntry]
    split
    · trivial
    · next hms =>
      have hms : sh.managerStarted = true := by simpa using hms
      split
      · exact ⟨.of_eq rfl rfl rfl rfl, fun _ => hms⟩
      · split
        · trivial
        · exact ⟨.of_eq rfl rfl rfl rfl, fun _ => hms⟩
  | view position =>
    have hms := hb (by rintro ⟨⟩)
    obtain ⟨v, hv, hsmall⟩ := hview hms
    refine Runs.atView hv ?_
    obtain ⟨stripe, hstripe⟩ := hsmall.mapStripe_ok position
    rw [hstripe]
    cases stripe with
    | none => exact ⟨.refl sh, fun _ => hms⟩
    | some stripe => exact ⟨.refl sh, fun _ => hms⟩
  | «seal» epoch oid rest => exact Runs.backend fun _ => ⟨.refl sh, fun _ => hb (by rintro ⟨⟩)⟩
  | exited => trivial

/-! ## Reading views and opening -/

/-- A view that is not older than the current one is installed. -/
theorem installMove_runs {σ : Type} {vs : List View} {epoch : Nat} {blob : Fbs.View} {view : View}
    {next : σ} (hd : View.decode blob = .ok view) (hlb : sh.backend = some lb)
    (hseq : SeqOk vs sh) (hle : ∀ curr, sh.view = some curr → curr.epoch ≤ epoch) :
    Runs b sh (fun sh' s => s = next ∧ Upholds sh sh') (some (installMove lb sh epoch blob next)) := by
  have hne : installMove lb sh epoch blob next ≠ .abort := installMove_ne_abort hd hlb hseq hle
  cases hm : installMove lb sh epoch blob next with
  | abort => exact hne hm
  | backend call k =>
    exact absurd (congrArg some hm) (installMove_calls (P := fun _ => False) _ call k)
  | memory sh' s =>
    obtain ⟨rfl, hcases⟩ := installMove_cases hm
    refine ⟨rfl, ?_⟩
    rcases hcases with rfl | hi
    · exact .refl _
    · -- sequencers are only added
      obtain ⟨view, seqs, seq, -, hattach, rfl⟩ := hi.view
      have hlen : sh.seqs.length ≤ seqs.length := by
        rcases attachSequencer_cases hattach with ⟨rfl, -⟩ | ⟨_, _, _, _, -, -, -, -, -, -, rfl, -⟩ |
          ⟨_, -, -, rfl, -⟩
        · exact Nat.le_refl _
        · exact Nat.le_refl _
        · simp
      exact ⟨⟨id, fun _ _ => (by rintro ⟨⟩), hlen⟩, id⟩

/-- The view that was read is stored, and no newer one was installed meanwhile. -/
theorem BlobAt.install_runs {σ : Type} {epoch : Nat} {blob : Fbs.View} {pc : Pc} {next : σ}
    (hblob : BlobAt u b epoch blob) (hlb : sh.backend = some lb) (hseq : SeqOk (viewsOf u b) sh)
    (hfetched : pc.fetched? = some epoch) (hlive : ¬ Dies sh pc) :
    Runs b sh (fun sh' s => s = next ∧ Upholds sh sh')
      (some (installMove lb sh epoch blob next)) := by
  obtain ⟨view, hd, -⟩ := hblob
  refine installMove_runs hd hlb hseq fun curr hcurr => ?_
  by_contra hlt
  exact hlive (.overtaken hfetched hcurr (Nat.lt_of_not_le hlt))

/-- The refresh thread installs what it has read, unless it was overtaken. -/
theorem refreshEntry_runs {pc : RefreshPc} (hlb : sh.backend = some lb) (hpc : RefreshOk u b pc)
    (hseq : SeqOk (viewsOf u b) sh) (hlive : ¬ Dies sh (.refresh pc)) :
    Runs b sh (fun sh' _ => Upholds sh sh') (refreshEntry lb sh pc) := by
  cases pc with
  | idle =>
    simp only [refreshEntry]
    split
    · trivial
    · split
      · exact .of_eq rfl rfl rfl rfl
      · exact .refl sh
  | fetch => exact Runs.backend fun _ => .refl sh
  | install epoch blob => exact (hpc.install_runs hlb hseq rfl hlive).imp fun _ _ => And.right
  | readView =>
    simp only [refreshEntry]
    split
    · exact .refl sh
    · exact .refl sh
  | mark epoch => exact .of_eq rfl rfl rfl rfl
  | exited => trivial

/-- The opening thread runs, unless it was overtaken or its proposal failed. -/
theorem openEntry_runs {host : String} {created : Bool} {pc : OpenPc} (h : LogOk u name b)
    (hsh : SharedOk u b sh) (hpc : OpenOk u b pc) (hseq : SeqOk (viewsOf u b) sh)
    (hview : sh.managerStarted = true → sh.view ≠ none) (hb : (Pc.opener pc).Backed sh)
    (hlive : ¬ Dies sh (.opener pc)) :
    Runs b sh (fun sh' pc' => Upholds sh sh' ∧ (Pc.opener pc').Backed sh')
      (openEntry name host options created sh pc) := by
  obtain ⟨hms, hcrash⟩ := hb
  cases pc with
  | openLog =>
    refine Runs.backend fun r => ⟨.refl sh, ?_⟩
    split
    · split
      · exact .unmanaged not_false
      · exact .unmanaged not_false
    · exact .unmanaged not_false
  | uniqueId hoid pfx =>
    refine Runs.backend fun r => ⟨.refl sh, ?_⟩
    split
    · exact .unmanaged not_false
    · exact .unmanaged not_false
  | construct hoid pfx id => exact ⟨.of_eq rfl rfl rfl rfl, .unmanaged not_false⟩
  | fetch =>
    simp only [openEntry]
    split
    · trivial
    · refine Runs.backend fun r => ⟨.refl sh, ?_⟩
      split
      · exact .unmanaged not_false
      · split
        · exact .unmanaged not_false
        · exact .unmanaged not_false
  | install epoch blob =>
    simp only [openEntry]
    split
    · trivial
    · next lb hlb =>
      refine (BlobAt.install_runs hpc hlb hseq rfl hlive).imp ?_
      rintro sh' _ ⟨rfl, hup⟩
      exact ⟨hup, .unmanaged not_false⟩
  | checkView =>
    simp only [openEntry]
    split
    · exact ⟨.of_eq rfl rfl rfl rfl, .unmanaged not_false⟩
    · next v hv =>
      refine ⟨⟨⟨fun _ => rfl, fun _ _ => ?_, Nat.le_refl _⟩, id⟩, fun _ => rfl, by rintro ⟨⟩⟩
      show sh.view ≠ none
      rw [hv]
      rintro ⟨⟩
  -- the view manager was started with the view in place
  | propose pc =>
    have hms := hms trivial
    simp only [openEntry]
    split
    · trivial
    · next lb hlb =>
      refine Runs.inside ((proposeSequencer_runs h hsh (hsh.backend lb hlb) hpc (hview hms)
        fun heq => hcrash (by rw [heq])).imp ?_)
      rintro sh' s ⟨hup, hs⟩
      refine ⟨hup, ?_⟩
      cases s with
      | goto pc => exact ⟨fun _ => hup.started hms, fun heq => hs (by cases heq; rfl)⟩
      | ret r =>
        cases r with
        | error e => exact .unmanaged not_false
        | ok _ =>
          simp only [Next.elim]
          split
          · exact ⟨fun _ => hup.started hms, by rintro ⟨⟩⟩
          · exact ⟨fun _ => hup.started hms, by rintro ⟨⟩⟩
  | checkStripes =>
    have hms := hms trivial
    obtain ⟨v, hv⟩ := Option.ne_none_iff_exists'.mp (hview hms)
    refine Runs.atView hv ⟨.refl sh, ?_⟩
    split
    · exact ⟨fun _ => hms, by rintro ⟨⟩⟩
    · exact ⟨fun _ => hms, by rintro ⟨⟩⟩
  | initStripe => exact ⟨.of_eq rfl rfl rfl rfl, fun _ => hms trivial, by rintro ⟨⟩⟩
  -- the first of the two failures
  | crash => exact absurd .destroyed hlive
  | shutdownManager => exact ⟨.of_eq rfl rfl rfl rfl, .unmanaged not_false⟩
  | shutdownReader => exact ⟨.of_eq rfl rfl rfl rfl, .unmanaged not_false⟩
  | join =>
    simp only [openEntry]
    split
    · exact ⟨.refl sh, .unmanaged not_false⟩
    · trivial
  | _ => trivial

/-! ## Operations -/

/-- The operation is neither about to propose a view nor about to use a sequencer. -/
def OpPc.settled : OpPc → Bool
  | .sequence .. => false
  | pc => pc.proposal?.isNone

/-- An operation that is about to do neither relies on nothing. -/
theorem OpPc.Backed.of_settled {pc : OpPc} (h : pc.settled = true) : pc.Backed sh := by
  constructor
  · have hnone : pc.proposal? = none := by
      cases pc with
      | sequence v i => rfl
      | _ => exact Option.isNone_iff_eq_none.mp h
    rw [hnone]
    exact SmallProposal.none
  · intro v i heq
    rw [heq] at h
    cases h

/-- The mapping of a position ends in an object or in an expansion. -/
theorem mapPosition_runs (hsmall : v.objectMap.Small) {p : Nat} {pe : Option Nat}
    (hup : Upholds sh sh') :
    Runs b sh (fun sh' pc' => Upholds sh sh' ∧ pc'.Backed sh') (some (mapPosition sh' v p pe)) := by
  obtain ⟨⟨oid, last⟩, hmap⟩ := hsmall.map_ok p
  unfold mapPosition
  rw [hmap]
  cases oid with
  | none => exact ⟨hup, .of_settled rfl⟩
  | some oid =>
    cases last with
    | true => exact ⟨hup, .of_settled rfl⟩
    | false => exact ⟨hup, .of_settled rfl⟩

/-- The moves that the operations share. -/
theorem commonMove_runs (hv : sh.view = some v) (hsmall : v.objectMap.Small)
    (hfits : options.Fits) (pc : OpPc) :
    Runs b sh (fun sh' pc' => Upholds sh sh' ∧ pc'.Backed sh') (commonMove options lb sh pc) := by
  cases pc with
  | scheduleExpand v oid p pe =>
    refine ⟨?_, .of_settled rfl⟩
    show Upholds sh (asyncExpandView sh _)
    unfold asyncExpandView
    split
    · exact ⟨⟨id, id, Nat.le_refl _⟩, fun _ => by rintro ⟨⟩⟩
    · split
      · exact ⟨⟨id, id, Nat.le_refl _⟩, fun _ => by rintro ⟨⟩⟩
      · exact .refl sh
  | expand p pe pc =>
    refine Runs.inside ((tryExpandView_runs hv hsmall hfits pc).imp ?_)
    rintro sh' s ⟨hup, hs⟩
    refine ⟨hup, ?_⟩
    cases s with
    | goto pc => exact ⟨hs, by rintro _ _ ⟨⟩⟩
    | ret r => cases r <;> exact .of_settled rfl
  | wait p pe wait =>
    refine Runs.inside ((waitForNewerView_runs wait).imp fun sh' s h => ⟨h, ?_⟩)
    cases s <;> exact .of_settled rfl
  | _ => trivial

/-- `Read`, `Fill` and `Trim` map their position on the current view. -/
theorem positionOp_runs {α : Type} {call : String → Nat → Nat → Call Fbs.View (Ret α)}
    {finish : Ret α → Ret Reply} (hv : sh.view = some v) (hsmall : v.objectMap.Small)
    (hfits : options.Fits) (pc : OpPc) :
    Runs b sh (fun sh' pc' => Upholds sh sh' ∧ pc'.Backed sh')
      (positionOp call finish options lb sh pc) := by
  unfold positionOp
  split
  · exact Runs.atView hv (mapPosition_runs hsmall (.refl sh))
  · refine Runs.backend fun r => ⟨.refl sh, ?_⟩
    split <;> exact .of_settled rfl
  · refine Runs.backend fun r => ⟨.refl sh, ?_⟩
    split <;> exact .of_settled rfl
  · exact commonMove_runs hv hsmall hfits _

/-- The sequencer of the current view is there. -/
theorem SeqOk.lt_length {vs : List View} (hseq : SeqOk vs sh) (hv : sh.view = some v) {i : Nat}
    (hi : v.seq = some i) : i < sh.seqs.length := by
  obtain ⟨rfl, -, hne⟩ := hseq.attached v i hv hi
  exact List.length_pos_of_ne_nil hne

/-- An append draws from a sequencer that exists, and maps what it drew on the view it holds. -/
theorem appendOp_runs {data : String} {vs : List View} (hseq : SeqOk vs sh)
    (hv : sh.view = some v) (hsmall : v.objectMap.Small) (hfits : options.Fits) {pc : OpPc}
    (hheld : ∀ v i, pc = .sequence v i → v.objectMap.Small) (hb : pc.Backed sh) :
    Runs b sh (fun sh' pc' => Upholds sh sh' ∧ pc'.Backed sh') (appendOp data options lb sh pc) := by
  cases pc with
  | start p pe =>
    refine Runs.atView hv ?_
    cases hi : v.seq with
    | none => exact ⟨.refl sh, .of_settled rfl⟩
    | some i =>
      have hlt := hseq.lt_length hv hi
      dsimp only
      rw [List.getElem?_eq_getElem hlt]
      dsimp only
      split
      · exact mapPosition_runs hsmall (.refl sh)
      · refine ⟨.refl sh, SmallProposal.none, ?_⟩
        rintro _ _ ⟨⟩
        exact hlt
  | sequence v' i =>
    -- the sequencers of a client are never removed
    simp only [appendOp]
    rw [List.getElem?_eq_getElem (hb.sequencer v' i rfl)]
    refine mapPosition_runs (hheld v' i rfl) ⟨⟨id, id, ?_⟩, id⟩
    exact le_of_eq List.length_set.symm
  | io v oid p pe =>
    refine Runs.backend fun r => ⟨.refl sh, ?_⟩
    split <;> exact .of_settled rfl
  | «seal» v oid p pe =>
    refine Runs.backend fun r => ⟨.refl sh, ?_⟩
    split <;> exact .of_settled rfl
  | _ =>
    simp only [appendOp]
    exact commonMove_runs hv hsmall hfits _

/-- `CheckTail` reads a sequencer that exists. -/
theorem tailOp_runs {vs : List View} (hseq : SeqOk vs sh) (hv : sh.view = some v) {pc : OpPc}
    (hb : pc.Backed sh) :
    Runs b sh (fun sh' pc' => Upholds sh sh' ∧ pc'.Backed sh') (tailOp sh pc) := by
  cases pc with
  | start p pe =>
    refine Runs.atView hv ?_
    cases hi : v.seq with
    | none => exact ⟨.refl sh, .of_settled rfl⟩
    | some i =>
      refine ⟨.refl sh, SmallProposal.none, ?_⟩
      rintro _ _ ⟨⟩
      exact hseq.lt_length hv hi
  | sequence v' i =>
    simp only [tailOp]
    rw [List.getElem?_eq_getElem (hb.sequencer v' i rfl)]
    exact ⟨.refl sh, .of_settled rfl⟩
  | _ => trivial

/-- `trimTo` walks the stripes of the view it holds. -/
theorem trimToOp_runs (hv : sh.view = some v) (hsmall : v.objectMap.Small) (hfits : options.Fits)
    {pc : OpPc} (hheld : ∀ v p k, pc = .walk v p k → v.objectMap.Small) :
    Runs b sh (fun sh' pc' => Upholds sh sh' ∧ pc'.Backed sh') (trimToOp options lb sh pc) := by
  have htrimAll : ∀ v p k objects, (OpPc.trimAll v p k objects).Backed sh := by
    intro v p k objects
    cases objects <;> exact .of_settled rfl
  cases pc with
  | start p pe =>
    refine Runs.atView hv ?_
    split <;> exact ⟨.refl sh, .of_settled rfl⟩
  | advance p pc =>
    refine Runs.inside ((advanceMinValidPosition_runs hv hsmall pc).imp ?_)
    rintro sh' s ⟨hup, hs⟩
    refine ⟨hup, ?_⟩
    cases s with
    | goto pc => exact ⟨hs, by rintro _ _ ⟨⟩⟩
    | ret r => cases r <;> exact .of_settled rfl
  | walk v' p k =>
    -- the view may be old, but it is one that was stored
    obtain ⟨r, hr⟩ := (hheld v' p k rfl).mapTo_ok p k
    simp only [trimToOp, hr]
    cases r with
    | unmapped => exact ⟨.refl sh, .of_settled rfl⟩
    | done => exact ⟨.refl sh, .of_settled rfl⟩
    | objects objects k' => exact ⟨.refl sh, htrimAll _ _ _ _⟩
  | trim v p k oid full rest =>
    refine Runs.backend fun r => ⟨.refl sh, ?_⟩
    split
    · exact htrimAll _ _ _ _
    · exact .of_settled rfl
    · exact .of_settled rfl
    · exact .of_settled rfl
  | «seal» v oid p pe =>
    refine Runs.backend fun r => ⟨.refl sh, ?_⟩
    split <;> exact .of_settled rfl
  | _ =>
    simp only [trimToOp]
    exact commonMove_runs hv hsmall hfits _

/-- An operation of any request. -/
theorem Request.run_runs (hseq : SeqOk (viewsOf u b) sh)
    (hviews : ∀ v ∈ viewsOf u b, v.objectMap.Small) (hv : sh.view = some v)
    (hheld : Held u b v) (hfits : options.Fits) {r : Request} {pc : OpPc} (hpc : OpOk u b r pc)
    (hb : pc.Backed sh) :
    Runs b sh (fun sh' pc' => Upholds sh sh' ∧ pc'.Backed sh') (r.run options lb sh pc) := by
  have hsmall := hviews v.view hheld.mem
  cases r with
  | append data =>
    refine appendOp_runs hseq hv hsmall hfits ?_ hb
    rintro v' i rfl
    exact hviews v'.view hpc.mem
  | read p => exact positionOp_runs hv hsmall hfits pc
  | fill p => exact positionOp_runs hv hsmall hfits pc
  | trim p =>
    simp only [Request.run, trimOp]
    exact positionOp_runs hv hsmall hfits pc
  | trimTo p =>
    refine trimToOp_runs hv hsmall hfits ?_
    rintro v' q k rfl
    exact hviews v'.view hpc.2.1.mem
  | checkTail => exact tailOp_runs hseq hv hb

/-! ## Clients -/

/-- A client whose options are within the 32-bit product, with the expander as its third thread. -/
structure Client.Sane (c : Client) : Prop where
  fits : c.options.Fits
  viewed : c.shared.managerStarted = true → c.shared.view ≠ none
  expander : ∀ (i : Nat) t pc, c.threads[i]? = some t → t.pc = .expander pc → i = 2
  backed : ∀ t ∈ c.threads, t.pc.Backed c.shared

variable {c c' : Client} {pc pc' : Pc} {w w' w₀ : World} {a : Action} {cid tid : Nat} {t : Thread}

/-- **One move**: it is no abort, and where it ends the thread is backed again. -/
theorem Pc.move_runs (hl : LogOk u name b) (hc : ClientOk u b c) (hpc : PcOk u b pc)
    (hseq : SeqOk (viewsOf u b) c.shared) (hviews : ∀ v ∈ viewsOf u b, v.objectMap.Small)
    (hsane : c.Sane) (hb : pc.Backed c.shared) (hlive : ¬ Dies c.shared pc) :
    Runs b c.shared (fun sh' pc' => Steady c.shared sh' ∧ pc'.Backed sh' ∧
      ((∀ epc, pc ≠ .expander epc) → c.shared.expandPos ≠ none → sh'.expandPos ≠ none))
      (pc.move name c) := by
  have hview : c.shared.managerStarted = true → ∃ v, c.shared.view = some v ∧ Held u b v := by
    intro hms
    obtain ⟨v, hv⟩ := Option.ne_none_iff_exists'.mp (hsane.viewed hms)
    exact ⟨v, hv, hc.shared.view v hv⟩
  have hsmall : c.shared.managerStarted = true →
      ∃ v, c.shared.view = some v ∧ v.objectMap.Small := by
    intro hms
    obtain ⟨v, hv, hheld⟩ := hview hms
    exact ⟨v, hv, hviews v.view hheld.mem⟩
  cases pc with
  | opener pc =>
    refine Runs.map ((openEntry_runs hl hc.shared hpc hseq hsane.viewed hb hlive).imp ?_)
    exact fun _ _ h => ⟨h.1.toSteady, h.2, fun _ => h.1.requested⟩
  | refresh pc =>
    simp only [Pc.move]
    split
    · trivial
    · next lb hlb =>
      refine Runs.map ((refreshEntry_runs hlb hpc hseq hlive).imp ?_)
      exact fun _ _ h => ⟨h.toSteady, trivial, fun _ => h.requested⟩
  | expander pc =>
    simp only [Pc.move]
    split
    · trivial
    · refine Runs.map ((expanderEntry_runs hsmall hsane.fits hb).imp ?_)
      exact fun _ _ h => ⟨h.1, h.2, fun hne => absurd rfl (hne pc)⟩
  | stripeInit pc =>
    simp only [Pc.move]
    split
    · trivial
    · refine Runs.map ((stripeInitEntry_runs hsmall hb).imp ?_)
      exact fun _ _ h => ⟨h.1.toSteady, h.2, fun _ => h.1.requested⟩
  | op r pc =>
    obtain ⟨hms, hb⟩ := hb
    obtain ⟨v, hv, hheld⟩ := hview hms
    simp only [Pc.move]
    split
    · trivial
    · refine Runs.map ((Request.run_runs hseq hviews hv hheld hsane.fits hpc hb).imp ?_)
      exact fun _ _ h => ⟨h.1.toSteady, ⟨h.1.started hms, h.2⟩, fun _ => h.1.requested⟩

/-- The two failures are failures. -/
theorem Dies.aborts (h : Dies c.shared pc) (hpc : PcOk u b pc)
    (hseq : SeqOk (viewsOf u b) c.shared) : pc.move name c = some .abort := by
  cases h with
  | destroyed => rfl
  | @overtaken pc epoch curr hf hcurr hlt =>
    -- a client that has a view has a handle
    obtain ⟨lb, hlb⟩ : ∃ lb, c.shared.backend = some lb := by
      apply Option.ne_none_iff_exists'.mp
      intro hnone
      rw [(hseq.blank hnone).1] at hcurr
      cases hcurr
    have hinstall : ∀ {σ : Type} {blob : Fbs.View} {next : σ}, BlobAt u b epoch blob →
        installMove lb c.shared epoch blob next = .abort := by
      intro σ blob next hblob
      obtain ⟨view, hd, -⟩ := hblob
      have herr : installView lb c.shared epoch view = .error .assertion := by
        simp only [installView, hcurr]
        rw [if_pos hlt]
      simp only [installMove, hd, herr]
    cases pc with
    | opener pc =>
      cases pc with
      | install e blob =>
        cases hf
        have hblob : BlobAt u b epoch blob := hpc
        simp [Pc.move, openEntry, hlb, hinstall hblob, Move.map]
      | _ => cases hf
    | refresh pc =>
      cases pc with
      | install e blob =>
        cases hf
        have hblob : BlobAt u b epoch blob := hpc
        simp [Pc.move, refreshEntry, hlb, hinstall hblob, Move.map]
      | _ => cases hf
    | _ => cases hf

/-- What backs a thread is left to it by the others. -/
theorem Pc.Backed.keep (h : pc.Backed sh) (hs : Steady sh sh')
    (hreq : ∀ epc, pc = .expander epc → sh.expandPos ≠ none → sh'.expandPos ≠ none) :
    pc.Backed sh' := by
  cases pc with
  | opener pc => exact ⟨fun hm => hs.started (h.1 hm), h.2⟩
  | refresh pc => trivial
  | expander pc =>
    -- only the expander itself may withdraw the request
    exact ⟨fun hne => hs.started (h.1 hne), h.2.1, fun hserve => hreq pc rfl (h.2.2 hserve)⟩
  | stripeInit pc => exact fun hne => hs.started (h hne)
  | op r pc =>
    refine ⟨hs.started h.1, h.2.proposal, fun v i heq => ?_⟩
    exact lt_of_lt_of_le (h.2.sequencer v i heq) hs.seqs

/-- A new client is sane: its threads have not begun. -/
theorem Client.Sane.new (hfits : options.Fits) (host : Host) (created : Bool) (clock : Nat)
    {pc : OpenPc} (hpc : pc.Unnamed) :
    Client.Sane ⟨options, host, created, {}, Client.newThreads pc clock⟩ := by
  have hopener : (Pc.opener pc).Backed {} := by
    cases pc with
    | openLog => exact .unmanaged not_false
    | uniqueId => exact .unmanaged not_false
    | construct => exact .unmanaged not_false
    | _ => exact hpc.elim
  refine ⟨hfits, by rintro ⟨⟩, ?_, ?_⟩
  · intro i t epc ht hpc
    -- the expander is the third of the four threads
    rcases i with _ | _ | _ | _ | i
    · cases ht
      cases hpc
    · cases ht
      cases hpc
    · rfl
    · cases ht
      cases hpc
    · cases ht
  · intro t ht
    simp only [Client.newThreads, List.mem_cons, List.not_mem_nil, or_false] at ht
    rcases ht with rfl | rfl | rfl | rfl
    · exact hopener
    · trivial
    · exact ⟨fun hne => absurd rfl hne, SmallProposal.none, by rintro ⟨⟩⟩
    · exact fun hne => absurd rfl hne

/-- One thread has moved. -/
theorem Client.Sane.run {t' : Thread} (h : c.Sane) (ht : c.threads[tid]? = some t)
    (hs : Steady c.shared sh') (hb : t'.pc.Backed sh')
    (hexp : ∀ epc, t'.pc = .expander epc → ∃ epc', t.pc = .expander epc')
    (hreq : (∀ epc, t.pc ≠ .expander epc) → c.shared.expandPos ≠ none → sh'.expandPos ≠ none) :
    Client.Sane { c with shared := sh', threads := c.threads.set tid t' } := by
  refine ⟨h.fits, hs.viewed h.viewed, ?_, ?_⟩
  · intro i d pc hd hpc
    rcases getElem?_set_cases ht hd with ⟨-, hd⟩ | ⟨rfl, rfl⟩
    · exact h.expander i d pc hd hpc
    · obtain ⟨epc, hepc⟩ := hexp pc hpc
      exact h.expander i t epc ht hepc
  · intro d hd
    obtain ⟨i, hi⟩ := List.mem_iff_getElem?.mp hd
    rcases getElem?_set_cases ht hi with ⟨hne, hi⟩ | ⟨rfl, rfl⟩
    · refine (h.backed d (List.mem_of_getElem? hi)).keep hs fun epc hepc => hreq fun epc' hepc' => ?_
      -- there is one expander
      exact hne ((h.expander i d epc hi hepc).trans (h.expander tid t epc' ht hepc').symm)
    · exact hb

/-! ## Runs -/

instance decidableFits : Decidable options.Fits :=
  decidable_of_iff (1 ≤ options.stripeWidth ∧ 1 ≤ options.stripeSlots ∧
      options.stripeWidth * options.stripeSlots < 2 ^ 32)
    ⟨fun h => ⟨h.1, h.2.1, h.2.2⟩, fun h => ⟨h.width_pos, h.slots_pos, h.size_lt⟩⟩

/-- New clients ask for stripes within the 32-bit product. -/
def Fitting (_ : World) : Action → Prop
  | .open options _ => options.Fits
  | _ => True

instance decidableFitting (w : World) : (a : Action) → Decidable (Fitting w a)
  | .open options _ => inferInstanceAs (Decidable options.Fits)
  | .invoke .. => isTrue trivial
  | .close _ => isTrue trivial
  | .run .. => isTrue trivial

/-- The position for which a thread is about to expand the map. -/
def Pc.expanding? : Pc → Option Nat
  | .op _ (.expand position _ (.start _)) => some position
  | .expander (.expand position (.start _)) => some position
  | _ => none

/-- The map that `expand_mapping` computes ends at the last 64-bit position at most.  In exact numbers
    that is what keeps `max_position_`, `instances_` and their products from wrapping. -/
def View.ExpandsInRange (v : View) (position : Nat) (options : Options) : Prop :=
  ∀ newView ∈ (v.expandMapping position options).toOption.join, newView.objectMap.limit ≤ 2 ^ 64

/-- The step computes no map that ends past the last 64-bit position. -/
def InRange (w : World) : Action → Prop
  | .run cid tid => ∀ c ∈ w.clients[cid]?, ∀ t ∈ c.threads[tid]?, ∀ p ∈ t.pc.expanding?,
      ∀ v ∈ c.shared.view, v.view.ExpandsInRange p c.options
  | _ => True

instance decidableInRange (w : World) : (a : Action) → Decidable (InRange w a)
  | .run cid tid => inferInstanceAs (Decidable (∀ c ∈ w.clients[cid]?, ∀ t ∈ c.threads[tid]?,
      ∀ p ∈ t.pc.expanding?, ∀ v ∈ c.shared.view,
        ∀ newView ∈ (v.view.expandMapping p c.options).toOption.join,
          newView.objectMap.limit ≤ 2 ^ 64))
  | .open .. => isTrue trivial
  | .invoke .. => isTrue trivial
  | .close _ => isTrue trivial

/-- Clients ask for stripes within the 32-bit product, and maps stay within 64 bits. -/
def Bounded (w : World) (a : Action) : Prop := Fitting w a ∧ InRange w a

instance decidableBounded (w : World) (a : Action) : Decidable (Bounded w a) :=
  inferInstanceAs (Decidable (Fitting w a ∧ InRange w a))

/-- All views and all clients are within the 32-bit product, and the clients are sane. -/
structure Unfailing (u : Uuid) (w : World) : Prop where
  views : ∀ v ∈ viewsOf u w.backend, v.objectMap.Small
  clients : ∀ c ∈ w.clients, c.Sane

/-- A stored view is one that was proposed. -/
theorem Unfailing.views_step (hU : Unfailing u w) (hI : Inv u name w) (h : w.step a = some w') :
    ∀ v ∈ viewsOf u w'.backend, v.objectMap.Small := by
  rcases hI.backend_step h with heq |
    ⟨cid, tid, c, t, α, call, next, rfl, hc, ht, hm, hcall, hpc, heq⟩
  · rw [heq]
    exact hU.views
  rw [heq]
  cases hprop : call.proposal? with
  | none =>
    rw [hcall.viewsOf_eq hprop]
    exact hU.views
  | some x =>
    obtain ⟨hoid, epoch, blob⟩ := x
    obtain ⟨rfl, hcall'⟩ := Call.proposal_eq_some hprop
    dsimp only at hcall'
    subst hcall'
    obtain rfl := hcall.proposal_hoid hprop
    have hcmem := List.mem_of_getElem? hc
    -- accepted, the proposal becomes the latest view
    have hnext : ∀ (curr : VersionedView) (newView : View), Held u w.backend curr →
        NextView curr.epoch curr.view newView → newView.objectMap.Small →
        ∀ v ∈ viewsOf u (w.backend.proposeView u.hoid (curr.epoch + 1) newView.encode).2,
          v.objectMap.Small := by
      intro curr newView hheld hn hsmall v hv
      rcases hI.log.proposeView hheld hn with ⟨-, hp⟩ | ⟨-, b', hp, hviews, -⟩
      · rw [hp] at hv
        exact hU.views v hv
      · rw [hp, show viewsOf u (Except.ok (), b').2 = _ from hviews] at hv
        rcases List.mem_append.mp hv with hv | hv
        · exact hU.views v hv
        · rw [List.mem_singleton.mp hv]
          exact hsmall
    rcases Pc.move_proposes t.pc _ _ _ hm _ _ _ hprop with ⟨curr, newView, hcn, rfl, rfl⟩ |
      ⟨lb, retries, curr, seed, hlb, hop, rfl, rfl⟩
    · -- an expansion or an advance: small where the thread is
      obtain ⟨hheld, hn, -⟩ := hpc.proposal hcn
      have hb := (hU.clients c hcmem).backed t (List.mem_of_getElem? ht)
      refine hnext curr newView hheld hn ?_
      generalize t.pc = pc at hcn hb
      cases pc with
      | expander pc => exact hb.2.1 curr newView hcn
      | op r pc => exact hb.2.proposal curr newView hcn
      | _ => cases hcn
    · -- a sequencer: the map stays
      rw [hop] at hpc
      obtain ⟨hheld, -⟩ := hpc
      have htoken := ((hI.clients c hcmem).shared.backend lb hlb).2.2
      exact hnext curr _ hheld (.sequencer lb.token seed htoken) (hU.views curr.view hheld.mem)

/-- Only an opened log has a new client. -/
theorem World.step_fresh (h : w.step a = some w') (hn : w.clients[cid]? = none)
    (hc' : w'.clients[cid]? = some c') :
    ∃ options host, a = .open options host ∧ c' = Client.new options host w.clock := by
  have hset : ∀ i d, (w.clients.set i d)[cid]? ≠ some c' := by
    intro i d hset
    have hlt := lt_of_getElem?_eq_some hset
    rw [List.length_set] at hlt
    have hge := List.getElem?_eq_none_iff.mp hn
    omega
  cases a with
  | «open» options host =>
    cases h
    rcases getElem?_snoc hc' with hc | ⟨-, rfl⟩
    · rw [hn] at hc
      cases hc
    · exact ⟨options, host, rfl, rfl⟩
  | invoke i r =>
    simp only [World.step] at h
    split at h
    · cases h
    · split at h
      · cases h
        exact absurd hc' (hset _ _)
      · cases h
  | close i =>
    simp only [World.step] at h
    split at h
    · cases h
    · split at h
      · cases h
        exact absurd hc' (hset _ _)
      · cases h
  | run i tid =>
    obtain ⟨c, t, m, -, -, -, -, rfl⟩ := World.step_run h
    cases m <;> exact absurd hc' (hset _ _)

/-- **One step** keeps every client sane. -/
theorem Unfailing.client_step (hU : Unfailing u w) (hI : Inv u name w) (hS : Sequencers u w)
    (hfit : Fitting w a) (h : w.step a = some w') (hc' : w'.clients[cid]? = some c') :
    c'.Sane := by
  cases hI.client_step h hc' with
  | same hc => exact hU.clients c' (List.mem_of_getElem? hc)
  | fresh options host hn heq hb =>
    -- new clients ask for small stripes
    obtain ⟨options, host, rfl, rfl⟩ := World.step_fresh h hn hc'
    exact .new hfit host false w.clock trivial
  | invoked c r hc ha hopen heq hb =>
    subst heq
    have hold := hU.clients c (List.mem_of_getElem? hc)
    -- operations are invoked on open clients, whose view manager runs
    have hms : c.shared.managerStarted = true := by
      simp only [Client.isOpen, Bool.and_eq_true, List.any_eq_true, decide_eq_true_eq] at hopen
      obtain ⟨-, t, ht, hpc⟩ := hopen
      have hb := hold.backed t ht
      rw [hpc] at hb
      exact hb.1 trivial
    refine ⟨hold.fits, hold.viewed, ?_, ?_⟩
    · intro i t pc ht hpc
      rcases getElem?_snoc ht with ht | ⟨-, rfl⟩
      · exact hold.expander i t pc ht hpc
      · cases hpc
    · intro t ht
      rcases List.mem_append.mp ht with ht | ht
      · exact hold.backed t ht
      · rw [List.mem_singleton.mp ht]
        exact ⟨hms, by cases r <;> exact .of_settled rfl⟩
  | closing c hc heq hb =>
    subst heq
    have hold := hU.clients c (List.mem_of_getElem? hc)
    refine ⟨hold.fits, hold.viewed, ?_, ?_⟩
    · intro i t pc ht hpc
      rw [List.getElem?_map] at ht
      obtain ⟨t₀, ht₀, rfl⟩ := Option.map_eq_some_iff.mp ht
      split at hpc
      · cases hpc
      · exact hold.expander i t₀ pc ht₀ hpc
    · intro t ht
      obtain ⟨t₀, ht₀, rfl⟩ := List.mem_map.mp ht
      split
      · exact .unmanaged not_false
      · exact hold.backed t₀ ht₀
  | died c hc heq hb =>
    subst heq
    have hold := hU.clients c (List.mem_of_getElem? hc)
    refine ⟨hold.fits, hold.viewed, hold.expander, fun t ht => ?_⟩
    have hup : Upholds c.shared { c.shared with aborted := true } := .of_eq rfl rfl rfl rfl
    exact (hold.backed t ht).keep hup.toSteady fun _ _ => hup.requested
  | ran c tid t sh pc hc ht ha heq hk hpc hmv =>
    subst heq
    have hcmem := List.mem_of_getElem? hc
    have htmem := List.mem_of_getElem? ht
    have hold := hU.clients c hcmem
    have hcok := hI.clients c hcmem
    -- the thread moved, so it did not abort
    have hlive : ¬ Dies c.shared t.pc := fun hdies =>
      hmv.ne_abort (hdies.aborts (hcok.threads t htmem) (hS.seqs c hcmem))
    obtain ⟨hsteady, hb, hreq⟩ := hmv.runs (Pc.move_runs hI.log hcok (hcok.threads t htmem)
      (hS.seqs c hcmem) hU.views hold (hold.backed t htmem) hlive)
    refine hold.run ht hsteady hb ?_ hreq
    intro epc hepc
    have hepc : pc = .expander epc := hepc
    subst hepc
    generalize t.pc = tpc at hpc
    cases tpc with
    | expander pc => exact ⟨pc, rfl⟩
    | _ =>
      obtain ⟨_, heq, -⟩ := hpc
      cases heq

/-- One step keeps all views within the product, and all clients sane. -/
theorem Unfailing.step (hU : Unfailing u w) (hI : Inv u name w) (hS : Sequencers u w)
    (hfit : Fitting w a) (h : w.step a = some w') : Unfailing u w' := by
  refine ⟨hU.views_step hI h, fun c' hc' => ?_⟩
  obtain ⟨cid, hcid⟩ := List.mem_iff_getElem?.mp hc'
  exact hU.client_step hI hS hfit h hcid

/-- A new log has one small view and one sane client. -/
theorem Unfailing.init {host : Host} (h : World.init name u options host = some w)
    (hfits : options.Fits) : Unfailing u w := by
  have hsmall : ∀ v ∈ viewsOf u w.backend, v.objectMap.Small := by
    obtain ⟨blob, b, hblob, hcreate, rfl⟩ := World.init_eq h
    obtain ⟨-, -, -, -, proj, hhead, -, -, hproj⟩ := createLog_head hcreate
    obtain ⟨blob', v, hblob', hd, hv⟩ := ObjectMap.createInitial_small hfits
    rw [hblob] at hblob'
    cases hblob'
    intro v' hv'
    have hviews : viewsOf u b = [v] := viewsOf_eq hhead hproj (by simp [hd])
    rw [hviews, List.mem_singleton] at hv'
    rw [hv']
    exact hv
  refine ⟨hsmall, ?_⟩
  obtain ⟨blob, b, -, -, rfl⟩ := World.init_eq h
  intro c hc
  rw [List.mem_singleton.mp hc]
  exact .new hfits host true 0 trivial

/-- **The failures of a client**: when all clients ask for stripes within the 32-bit product and maps
    stay within 64 bits, a thread aborts its process exactly when the proposal of its client has
    failed, or when the view that it has read was overtaken. -/
theorem aborts_iff {host : Host} (h₀ : World.init name u options host = some w₀)
    (hfits : options.Fits) (hrun : Lib.Run World.step Bounded w₀ w) (hc : w.clients[cid]? = some c)
    (ht : c.threads[tid]? = some t) :
    InRange w (.run cid tid) → (t.pc.move name c = some .abort ↔ Dies c.shared t.pc) := by
  -- in exact numbers no map fails, so the range is a condition on the numbers of the code
  rintro -
  have h : Lib.Run World.step Fitting w₀ w := hrun.mono fun _ _ hok => hok.1
  have hc := List.mem_of_getElem? hc
  have ht := List.mem_of_getElem? ht
  have hreach : ∀ {x}, Lib.Run World.step Fitting w₀ x → Lib.Reaches World.step w₀ x :=
    fun hx => hx.mono fun _ _ _ => trivial
  have hI : ∀ {x}, Lib.Run World.step Fitting w₀ x → Inv u name x :=
    fun hx => (Inv.init h₀).of_reaches (hreach hx)
  have hS : ∀ {x}, Lib.Run World.step Fitting w₀ x → Sequencers u x :=
    fun hx => .of_reaches h₀ (hreach hx)
  have hU : Unfailing u w := by
    refine h.invariant_reaches (I := Unfailing u) ?_ (.init h₀ hfits)
    intro x a x' hx hU hfit hs
    exact hU.step (hI hx) (hS hx) hfit hs
  have hcok := (hI h).clients c hc
  have hsane := hU.clients c hc
  constructor
  · -- a thread that is not about to fail has a move that runs
    intro habort
    by_contra hlive
    exact (Pc.move_runs (hI h).log hcok (hcok.threads t ht) ((hS h).seqs c hc) hU.views hsane
      (hsane.backed t ht) hlive).ne_abort habort
  · exact fun hdies => hdies.aborts (hcok.threads t ht) ((hS h).seqs c hc)

end

set_option maxRecDepth 100000 in
/-- An opening thread that was overtaken by the refresh thread is about to abort. -/
theorem aborts_iff_sample :
    ∃ w c t, Sample.worldIf Bounded Sample.overtaken = some w ∧ w.clients[0]? = some c ∧
      c.threads[0]? = some t ∧ InRange w (.run 0 0) ∧
      t.pc.fetched? = some 1 ∧ c.shared.view.map VersionedView.epoch = some 2 ∧
      t.pc.move "log" c = some .abort := by
  have hrun : ((Sample.worldIf Bounded Sample.overtaken).bind fun w => w.clients[0]?.bind fun c =>
      c.threads[0]?.map fun t => (t.pc.fetched?, c.shared.view.map VersionedView.epoch,
        decide (InRange w (.run 0 0)))) = some (some 1, some 2, true) := by decide +kernel
  obtain ⟨w, hw, hrun⟩ := Option.bind_eq_some_iff.mp hrun
  obtain ⟨c, hc, hrun⟩ := Option.bind_eq_some_iff.mp hrun
  obtain ⟨t, ht, heq⟩ := Option.map_eq_some_iff.mp hrun
  simp only [Prod.mk.injEq] at heq
  obtain ⟨hfetched, hview, hin⟩ := heq
  obtain ⟨curr, hcurr, hepoch⟩ := Option.map_eq_some_iff.mp hview
  obtain ⟨w₀, h₀, h⟩ := Sample.runs hw
  have hin : InRange w (.run 0 0) := of_decide_eq_true hin
  have hdies : Dies c.shared t.pc := .overtaken hfetched hcurr (by rw [hepoch]; decide)
  exact ⟨w, c, t, hw, hc, ht, hin, hfetched, hview,
    (aborts_iff h₀ (by decide) h hc ht hin).mpr hdies⟩

end ZLog
