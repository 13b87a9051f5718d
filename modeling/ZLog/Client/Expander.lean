import ZLog.Client.Control
import ZLog.Mapping.Expansion
import ZLog.Lib.Transition

/-!
# The expansion requests of a view manager

Any thread of a client may ask for a position to be mapped (`async_expand_view`); the expander
thread serves the greatest request.  It reads the request in one critical section and clears it in
another, with a look at the current view between them.

## Main results

- `ObjectMap.Regular.prefixClosed`: below a mapped position everything is mapped.
- `expanderEntry_moves`: what one section of the expander does to the request.
- `no_request_lost`: without a request every position that was ever asked for is mapped.
-/

namespace ZLog

/-! ## Mapped positions -/

namespace ObjectMap

variable {m : ObjectMap} {p q : Nat}

/-- The lookups of the map do not suffer from the 32-bit stripe size, or the map has a single run of
    stripes, as the maps of a log have. -/
def Regular (m : ObjectMap) : Prop := m.Small ∨ ∃ L n, m.HasLayout L n

/-- `map` has an object for the position. -/
def Maps (m : ObjectMap) (p : Nat) : Prop := ∃ oid, m.Names p oid

theorem Small.maps_iff (hm : m.Small) : m.Maps p ↔ p < m.limit := by
  constructor
  · intro h
    by_contra hp
    exact not_names_of_le (not_lt.mp hp) h
  · intro hp
    exact (lookupOk_iff_of_lt hp).mp (hm.lookupOk p)

/-- Below a mapped position everything is mapped. -/
theorem Regular.prefixClosed (h : m.Regular) (hle : p ≤ q) (hq : m.Maps q) : m.Maps p := by
  rcases h with hm | ⟨L, n, hL⟩
  · rw [hm.maps_iff] at hq ⊢
    exact lt_of_le_of_lt hle hq
  · obtain ⟨oid, last, hmap⟩ := hq
    obtain ⟨hlt, hsize, -, -⟩ := hL.map_some hmap
    rcases hL.map_cases p with ⟨hp, -⟩ | ⟨-, heq, -⟩ | ⟨-, -, hmap'⟩
    · omega
    · omega
    · exact ⟨L.oid p, _, hmap'⟩

end ObjectMap

/-! ## The sections of the expander -/

/-- What one section of the expander does: `Served sh pc sh' pc'`. -/
inductive Served (sh : Shared) : ExpanderPc → Shared → ExpanderPc → Prop where
  | exits : Served sh .idle { sh with expanderExited := true } .exited
  | reads {r : Nat} : sh.expandPos = some r → Served sh .idle sh (.check r)
  | unmapped {r : Nat} : Served sh (.check r) sh (.expand r .enter)
  | mapped {r : Nat} {v : VersionedView} : sh.view = some v → v.objectMap.Maps r →
      Served sh (.check r) sh (.clear r)
  | works {r : Nat} {pc pc' : ExpandPc} {sh' : Shared} : sh'.view = sh.view →
      sh'.expandPos = sh.expandPos → Served sh (.expand r pc) sh' (.expand r pc')
  | returns {r : Nat} {pc : ExpandPc} {sh' : Shared} : sh'.view = sh.view →
      sh'.expandPos = sh.expandPos → Served sh (.expand r pc) sh' .idle
  | raised {r pos : Nat} : sh.expandPos = some pos → r < pos → Served sh (.clear r) sh .idle
  | cleared {r pos : Nat} : sh.expandPos = some pos → pos ≤ r →
      Served sh (.clear r) { sh with expandPos := none } .idle

section

variable {options : Options} {lb : LogBackend} {sh : Shared}

/-- The access leaves the view and the request alone. -/
def Apart (sh sh' : Shared) : Prop := sh'.view = sh.view ∧ sh'.expandPos = sh.expandPos

theorem waitForNewerView_apart (wait : WaitPc) :
    Lands sh (fun sh' _ => Apart sh sh') (waitForNewerView sh wait) := by
  cases wait with
  | enter epoch =>
    simp only [waitForNewerView]
    split
    · exact ⟨rfl, rfl⟩
    · exact ⟨rfl, rfl⟩
  | blocked waiter =>
    simp only [waitForNewerView]
    split
    · trivial
    · exact ⟨rfl, rfl⟩

theorem tryExpandView_apart {position : Nat} (pc : ExpandPc) :
    Lands sh (fun sh' _ => Apart sh sh') (tryExpandView options lb position sh pc) := by
  cases pc with
  | start retries =>
    apply Lands.withView
    intro curr _
    split
    · trivial
    · exact ⟨rfl, rfl⟩
    · exact ⟨rfl, rfl⟩
  | propose retries curr newView => exact fun _ => ⟨rfl, rfl⟩
  | waitNew wait => exact (waitForNewerView_apart wait).inside
  | initStripe => exact ⟨rfl, rfl⟩
  | waitStale retries wait => exact (waitForNewerView_apart wait).inside
  | checkShutdown retries => exact ⟨rfl, rfl⟩

/-- Every section of the expander is one of these. -/
theorem expanderEntry_moves (pc : ExpanderPc) :
    Lands sh (fun sh' pc' => Served sh pc sh' pc') (expanderEntry options lb sh pc) := by
  cases pc with
  | idle =>
    simp only [expanderEntry]
    split
    · trivial
    · split
      · exact .exits
      · split
        · trivial
        · next hr => exact .reads hr
  | check r =>
    apply Lands.withView
    intro v hv
    split
    · trivial
    · exact .unmapped
    · next oid last hmap => exact .mapped hv ⟨oid, last, hmap⟩
  | expand r pc =>
    apply Lands.inside
    apply (tryExpandView_apart pc).imp
    rintro sh' next ⟨hview, hpos⟩
    cases next with
    | goto pc' => exact .works hview hpos
    | ret _ => exact .returns hview hpos
  | clear r =>
    simp only [expanderEntry]
    split
    · trivial
    · next pos hpos =>
      split
      · next hlt => exact .raised hpos hlt
      · next hle => exact .cleared hpos (not_lt.mp hle)
  | exited => trivial

end

/-! ## Requests -/

/-- A client's memory, its expander, and the positions that were ever asked for. -/
structure Requests where
  shared : Shared := {}
  expander : ExpanderPc := .idle
  asked : List Nat := []

namespace Requests

inductive Action where
  /-- Some thread calls `async_expand_view`. -/
  | ask (position : Nat)
  /-- One section of the expander; `ProposeView` gives the answer. -/
  | expander (answer : Ret Unit)
  /-- The rest of the client does something with its memory. -/
  | other (shared : Shared)

def step (options : Options) (lb : LogBackend) (s : Requests) : Action → Option Requests
  | .ask position =>
    some { s with shared := asyncExpandView s.shared position, asked := s.asked ++ [position] }
  | .expander answer =>
    match expanderEntry options lb s.shared s.expander with
    | some (.memory shared pc) => some { s with shared := shared, expander := pc }
    | some (.backend (.proposeView ..) next) => some { s with expander := next answer }
    | _ => none
  | .other shared => some { s with shared := shared }

/-- The view is monotone: a mapped position stays mapped.  Nobody else touches the request. -/
def Monotone (s : Requests) : Action → Prop
  | .other shared => shared.expandPos = s.shared.expandPos ∧
      (∀ v, shared.view = some v → v.objectMap.Regular) ∧
      ∀ v, s.shared.view = some v → ∃ v', shared.view = some v' ∧
        ∀ p, v.objectMap.Maps p → v'.objectMap.Maps p
  | _ => True

/-- The current view maps the position. -/
def Maps (sh : Shared) (p : Nat) : Prop := ∃ v, sh.view = some v ∧ v.objectMap.Maps p

/-- What holds throughout: every position that was asked for is mapped, or the request covers it;
    the request the expander works on stays until the expander itself clears it. -/
structure Kept (s : Requests) : Prop where
  regular : ∀ v, s.shared.view = some v → v.objectMap.Regular
  covered : ∀ p ∈ s.asked, Maps s.shared p ∨ ∃ q, s.shared.expandPos = some q ∧ p ≤ q
  serving : ∀ r, s.expander = .check r ∨ (∃ pc, s.expander = .expand r pc) ∨
    s.expander = .clear r → ∃ q, s.shared.expandPos = some q ∧ r ≤ q
  seen : ∀ r, s.expander = .clear r → Maps s.shared r

namespace Kept

variable {options : Options} {lb : LogBackend} {s s' : Requests}

theorem init : ({} : Requests).Kept := by
  refine ⟨?_, ?_, ?_, ?_⟩
  · intro v hv
    cases hv
  · intro p hp
    cases hp
  · rintro r (h | ⟨pc, h⟩ | h)
    all_goals cases h
  · intro r h
    cases h

/-- A request replaces a lesser one only. -/
theorem asyncExpandView_covers (sh : Shared) (position : Nat) :
    (asyncExpandView sh position).view = sh.view ∧
    ∃ q, (asyncExpandView sh position).expandPos = some q ∧ position ≤ q ∧
      ∀ r, sh.expandPos = some r → r ≤ q := by
  unfold asyncExpandView
  split
  · next hnone =>
    refine ⟨rfl, position, rfl, le_refl _, ?_⟩
    intro r hr
    rw [hnone] at hr
    cases hr
  · next pos hpos =>
    split
    · next hlt =>
      refine ⟨rfl, position, rfl, le_refl _, ?_⟩
      intro r hr
      rw [hpos] at hr
      cases hr
      exact hlt.le
    · next hle =>
      refine ⟨rfl, pos, hpos, not_lt.mp hle, ?_⟩
      intro r hr
      rw [hpos] at hr
      cases hr
      exact le_refl _

theorem ask (h : s.Kept) (position : Nat) :
    Kept { s with shared := asyncExpandView s.shared position,
                  asked := s.asked ++ [position] } := by
  obtain ⟨hview, q, hq, hle, hgreatest⟩ := asyncExpandView_covers s.shared position
  have hmaps : ∀ p, Maps s.shared p → Maps (asyncExpandView s.shared position) p := by
    rintro p ⟨v, hv, hp⟩
    exact ⟨v, hview.trans hv, hp⟩
  refine ⟨?_, ?_, ?_, ?_⟩
  · intro v hv
    exact h.regular v (hview.symm.trans hv)
  · intro p hp
    rcases List.mem_append.mp hp with hp | hp
    · rcases h.covered p hp with hm | ⟨r, hr, hpr⟩
      · exact Or.inl (hmaps p hm)
      · exact Or.inr ⟨q, hq, hpr.trans (hgreatest r hr)⟩
    · rw [List.mem_singleton.mp hp]
      exact Or.inr ⟨q, hq, hle⟩
  · intro r hr
    obtain ⟨pos, hpos, hrp⟩ := h.serving r hr
    exact ⟨q, hq, hrp.trans (hgreatest pos hpos)⟩
  · intro r hr
    exact hmaps r (h.seen r hr)

/-- The expander clears a request only when the view maps it, and with it everything below. -/
theorem served (h : s.Kept) {sh' : Shared} {pc' : ExpanderPc}
    (hserved : Served s.shared s.expander sh' pc') :
    Kept { s with shared := sh', expander := pc' } := by
  obtain ⟨sh, pc, asked⟩ := s
  dsimp only at hserved
  cases hserved with
  | exits => exact ⟨h.regular, h.covered, by simp, by simp⟩
  | reads hpos =>
    refine ⟨h.regular, h.covered, ?_, by simp⟩
    rintro r (hr | ⟨_, hr⟩ | hr)
    · cases hr
      exact ⟨_, hpos, le_refl _⟩
    · cases hr
    · cases hr
  | @unmapped r =>
    refine ⟨h.regular, h.covered, ?_, by simp⟩
    rintro r' (hr | ⟨_, hr⟩ | hr)
    · cases hr
    · cases hr
      exact h.serving r (Or.inl rfl)
    · cases hr
  | @mapped r v hv hm =>
    refine ⟨h.regular, h.covered, ?_, ?_⟩
    · rintro r' (hr | ⟨_, hr⟩ | hr)
      · cases hr
      · cases hr
      · cases hr
        exact h.serving r (Or.inl rfl)
    · intro r' hr
      cases hr
      exact ⟨v, hv, hm⟩
  | @works r pc pc' _ hview hpos =>
    refine ⟨fun v hv => h.regular v (hview.symm.trans hv), ?_, ?_, by simp⟩
    · intro p hp
      unfold Maps
      rw [hview, hpos]
      exact h.covered p hp
    · rintro r' (hr | ⟨_, hr⟩ | hr)
      · cases hr
      · cases hr
        show ∃ q, sh'.expandPos = some q ∧ r ≤ q
        rw [hpos]
        exact h.serving r (Or.inr (Or.inl ⟨pc, rfl⟩))
      · cases hr
  | @returns r pc _ hview hpos =>
    refine ⟨fun v hv => h.regular v (hview.symm.trans hv), ?_, by simp, by simp⟩
    intro p hp
    unfold Maps
    rw [hview, hpos]
    exact h.covered p hp
  | raised => exact ⟨h.regular, h.covered, by simp, by simp⟩
  | @cleared r pos hpos hle =>
    refine ⟨h.regular, ?_, by simp, by simp⟩
    intro p hp
    left
    rcases h.covered p hp with hm | ⟨q, hq, hpq⟩
    · exact hm
    · -- the request is the one that was looked up, or a lesser one
      obtain ⟨v, hv, hr⟩ := h.seen r rfl
      rw [show sh.expandPos = some q from hq] at hpos
      cases hpos
      exact ⟨v, hv, (h.regular v hv).prefixClosed (hpq.trans hle) hr⟩

/-- **Step lemma.** -/
theorem step (h : s.Kept) {a : Action} (hok : s.Monotone a)
    (hstep : s.step options lb a = some s') : s'.Kept := by
  cases a with
  | ask position =>
    cases hstep
    exact h.ask position
  | expander answer =>
    have hmoves : Lands s.shared (fun sh' pc' => Served s.shared s.expander sh' pc')
        (expanderEntry options lb s.shared s.expander) := expanderEntry_moves s.expander
    simp only [Requests.step] at hstep
    split at hstep
    · next sh' pc' hmove =>
      cases hstep
      rw [hmove] at hmoves
      exact h.served hmoves
    · next hmove =>
      cases hstep
      rw [hmove] at hmoves
      exact h.served (hmoves answer)
    · cases hstep
  | other sh' =>
    cases hstep
    obtain ⟨hpos, hregular, hgrows⟩ := hok
    have hmaps : ∀ p, Maps s.shared p → Maps sh' p := by
      rintro p ⟨v, hv, hp⟩
      obtain ⟨v', hv', hmono⟩ := hgrows v hv
      exact ⟨v', hv', hmono p hp⟩
    refine ⟨hregular, ?_, ?_, ?_⟩
    · intro p hp
      rcases h.covered p hp with hm | hq
      · exact Or.inl (hmaps p hm)
      · right
        rw [hpos]
        exact hq
    · intro r hr
      rw [hpos]
      exact h.serving r hr
    · intro r hr
      exact hmaps r (h.seen r hr)

end Kept

end Requests

/-- **No request is lost**: while the views are monotone, the assertions of the expander on the
    request hold, and whenever there is no request every position that was ever asked for is mapped
    by the current view. -/
theorem no_request_lost (options : Options) (lb : LogBackend) {s : Requests}
    (h : Lib.Run (Requests.step options lb) Requests.Monotone {} s) :
    (∀ r, s.expander = .clear r → s.shared.expandPos ≠ none ∧
      expanderEntry options lb s.shared s.expander ≠ some .abort) ∧
    (s.shared.expandPos = none → ∀ p ∈ s.asked, Requests.Maps s.shared p) ∧
    ∀ p ∈ s.asked, Requests.Maps s.shared p ∨ ∃ q, s.shared.expandPos = some q ∧ p ≤ q := by
  have hs : s.Kept := h.invariant (fun _ _ _ ht hok hstep => ht.step hok hstep) .init
  refine ⟨?_, ?_, hs.covered⟩
  · intro r hr
    obtain ⟨q, hq, -⟩ := hs.serving r (Or.inr (Or.inr hr))
    refine ⟨by simp [hq], ?_⟩
    rw [hr]
    simp only [expanderEntry, hq]
    split <;> simp
  · intro hnone p hp
    rcases hs.covered p hp with hm | ⟨q, hq, -⟩
    · exact hm
    · rw [hnone] at hq
      cases hq

/-- A client whose view maps the positions below 20 is asked for position 12, and for position 25
    after the expander has found 12 mapped and before it clears the request.  In its next round the
    expander proposes a view for 25, waits for it and finds 25 mapped. -/
theorem no_request_lost_sample :
    ∃ s, Lib.Run (Requests.step {} ⟨"head", "log", "token"⟩) Requests.Monotone {} s ∧
      s.asked = [12, 25] ∧ s.expander = .idle ∧ s.shared.expandPos = none ∧
      s.shared.stripeInitPos = [25] ∧ Requests.Maps s.shared 12 ∧ Requests.Maps s.shared 25 := by
  let larger : ObjectMap := (View.sampleMap.expandMapping 25 {}).toOption.join.getD View.sampleMap
  let sh : Shared := { view := some ⟨1, ⟨View.sampleMap, none⟩, none⟩, managerStarted := true }
  -- the expander waits for its view; the refresh thread has installed it
  let waiting : Requests :=
    { shared := { sh with expandPos := some 25, refreshWaiters := [⟨0, 1⟩], nextWaiter := 1 },
      expander := .expand 25 (.waitNew (.blocked ⟨0, 1⟩)), asked := [12, 25] }
  let sh' : Shared :=
    { waiting.shared with view := some ⟨2, ⟨larger, none⟩, none⟩, refreshWaiters := [] }
  have hsmall : View.sampleMap.Small := by
    unfold ObjectMap.Small
    decide
  have hlarger : larger.Small := by
    unfold ObjectMap.Small
    decide
  have hopen : Lib.Run (Requests.step {} ⟨"head", "log", "token"⟩) Requests.Monotone {}
      { shared := sh } := by
    refine .single (a := .other sh) ⟨rfl, ?_, fun v hv => by cases hv⟩ rfl
    intro v hv
    cases hv
    exact Or.inl hsmall
  have hexpand : Lib.Run (Requests.step {} ⟨"head", "log", "token"⟩) Requests.Monotone {} waiting :=
    hopen.trans (Lib.run_of_exec_forall [.ask 12, .expander (.ok ()), .expander (.ok ()), .ask 25,
      .expander (.ok ()), .expander (.ok ()), .expander (.ok ()), .expander (.ok ()),
      .expander (.ok ()), .expander (.ok ())] (by simp [Requests.Monotone]) rfl)
  have hgrows : ∀ p, View.sampleMap.Maps p → larger.Maps p := by
    intro p hp
    rw [hsmall.maps_iff] at hp
    rw [hlarger.maps_iff]
    exact lt_of_lt_of_le hp (by decide)
  have hfetched : waiting.Monotone (.other sh') := by
    refine ⟨rfl, ?_, ?_⟩
    · intro v hv
      cases hv
      exact Or.inl hlarger
    · intro v hv
      cases hv
      exact ⟨_, rfl, hgrows⟩
  have hfetch := hexpand.tail hfetched rfl
  have hclear := hfetch.trans (Lib.run_of_exec_forall [.expander (.ok ()),
    .expander (.ok ()), .expander (.ok ()), .expander (.ok ()), .expander (.ok ())]
    (by simp [Requests.Monotone]) rfl)
  have hmaps := (no_request_lost {} _ hclear).2.1 rfl
  exact ⟨_, hclear, rfl, rfl, rfl, rfl, hmaps 12 (by decide), hmaps 25 (by decide)⟩

end ZLog
