import ZLog.System.Scenes
import ZLog.System.Sessions

/-!
# An operation on its own

An operation that has been called needs two threads of its client to return: its own and the refresh
thread, which brings the views that the operation waits for.

A draw changes the sequencer and an expansion the map, so both are watched: the steps between two
draws leave the sequencers alone, and no step computes a map that ends past the last 64-bit position.

## Main results

- `Tended.step`: the refresh thread of an open client is there, and no operation is in a control
  state of another one.
- `Orderly.shown`: the scene of an operation of a client that is alive.
-/

namespace ZLog

/-! ## The control states of a request -/

/-- The control states that the `run` method of a request goes through, as far as the views and the
    objects that it holds do not tell. -/
def Request.Visits : Request → OpPc → Prop
  | .append _, _ => True
  | .checkTail, .start .. => True
  | .checkTail, .sequence .. => True
  | .checkTail, .done _ => True
  | .checkTail, _ => False
  | _, .sequence .. => False
  | _, _ => True

section

variable {options : Options} {lb : LogBackend} {sh sh' : Shared}

/-- The control state does not read the sequencer. -/
def OpPc.Positioned : OpPc → Prop
  | .sequence .. => False
  | _ => True

/-- Whether a position maps or not, the next state works on it. -/
theorem mapPosition_positioned {v : VersionedView} {p : Nat} {pe : Option Nat} :
    Lands sh (fun _ pc' => pc'.Positioned) (some (mapPosition sh' v p pe)) :=
  lands_mapPosition trivial (fun _ => trivial) fun _ => trivial

/-- So do the states that all positional operations share. -/
theorem commonMove_positioned (pc : OpPc) :
    Lands sh (fun _ pc' => pc'.Positioned) (commonMove options lb sh pc) := by
  cases pc with
  | scheduleExpand v oid p pe => trivial
  | expand p pe pc =>
    refine Lands.inside (lands_of_forall ?_ _)
    intro sh s
    cases s with
    | goto pc => trivial
    | ret result => cases result <;> trivial
  | wait p pe wait =>
    refine Lands.inside (lands_of_forall ?_ _)
    intro sh s
    cases s <;> trivial
  | _ => trivial

/-- `Read`, `Fill` and `Trim` never draw a position. -/
theorem positionOp_positioned {α : Type} {call : String → Nat → Nat → Call Fbs.View (Ret α)}
    {finish : Ret α → Ret Reply} (pc : OpPc) :
    Lands sh (fun _ pc' => pc'.Positioned) (positionOp call finish options lb sh pc) := by
  cases pc with
  | start p pe => exact Lands.withView fun v _ => mapPosition_positioned
  | io v oid p pe =>
    intro r
    dsimp only
    split <;> trivial
  | «seal» v oid p pe =>
    intro r
    dsimp only
    split <;> trivial
  | scheduleExpand v oid p pe => trivial
  | expand p pe pc =>
    -- the states that the operations share
    have hcommon : Lands sh _ (commonMove options lb sh (.expand p pe pc)) := commonMove_positioned _
    exact hcommon
  | wait p pe wait =>
    have hcommon : Lands sh _ (commonMove options lb sh (.wait p pe wait)) := commonMove_positioned _
    exact hcommon
  | _ => trivial

/-- Nor does `trimTo`. -/
theorem trimToOp_positioned (pc : OpPc) :
    Lands sh (fun _ pc' => pc'.Positioned) (trimToOp options lb sh pc) := by
  -- no object left, or the next one
  have htrimAll : ∀ v p k objects, (OpPc.trimAll v p k objects).Positioned := by
    intro v p k objects
    cases objects <;> trivial
  cases pc with
  | start p pe =>
    refine Lands.withView fun v _ => ?_
    split <;> trivial
  | advance p pc =>
    refine Lands.inside (lands_of_forall ?_ _)
    intro sh s
    cases s with
    | goto pc => trivial
    | ret result => cases result <;> trivial
  | walk v p k =>
    simp only [trimToOp]
    split
    · trivial
    · trivial
    · trivial
    · exact htrimAll _ _ _ _
  | trim v p k oid full rest =>
    -- the object was trimmed, or another view is needed first
    intro r
    dsimp only
    split
    · exact htrimAll _ _ _ _
    · trivial
    · trivial
    · trivial
  | «seal» v oid p pe =>
    intro r
    dsimp only
    split <;> trivial
  | scheduleExpand v oid p pe => trivial
  | expand p pe pc =>
    have hcommon : Lands sh _ (commonMove options lb sh (.expand p pe pc)) := commonMove_positioned _
    exact hcommon
  | wait p pe wait =>
    have hcommon : Lands sh _ (commonMove options lb sh (.wait p pe wait)) := commonMove_positioned _
    exact hcommon
  | _ => trivial

/-- **Step lemma.**  A request stays in its own control states. -/
theorem Request.run_visits {r : Request} {pc : OpPc} (h : r.Visits pc) :
    Lands sh (fun _ pc' => r.Visits pc') (r.run options lb sh pc) := by
  -- what works on a position belongs to each of the four
  have hposition : ∀ pc' : OpPc, pc'.Positioned → ∀ p, (Request.read p).Visits pc' ∧
      (Request.fill p).Visits pc' ∧ (Request.trim p).Visits pc' ∧ (Request.trimTo p).Visits pc' := by
    intro pc' hpc' p
    cases pc' with
    | sequence v i => exact hpc'.elim
    | _ => exact ⟨trivial, trivial, trivial, trivial⟩
  cases r with
  -- an append may be anywhere
  | append data => exact lands_of_forall (fun _ _ => trivial) _
  | read p => exact (positionOp_positioned pc).imp fun _ pc' hpc' => (hposition pc' hpc' p).1
  | fill p => exact (positionOp_positioned pc).imp fun _ pc' hpc' => (hposition pc' hpc' p).2.1
  | trim p =>
    simp only [Request.run, trimOp]
    exact (positionOp_positioned pc).imp fun _ pc' hpc' => (hposition pc' hpc' p).2.2.1
  | trimTo p => exact (trimToOp_positioned pc).imp fun _ pc' hpc' => (hposition pc' hpc' p).2.2.2
  -- `CheckTail` has three states only
  | checkTail =>
    cases pc with
    | start p pe =>
      refine Lands.withView fun v _ => ?_
      split <;> trivial
    | sequence v i =>
      simp only [Request.run, tailOp]
      split <;> trivial
    | done result => trivial
    | _ => exact h.elim

/-- The refresh thread exits when the view reader is shut down. -/
theorem refreshEntry_exits (pc : RefreshPc) :
    Lands sh (fun sh' pc' => pc' = .exited → sh'.readerShutdown = true)
      (refreshEntry lb sh pc) := by
  cases pc with
  -- the only way out of the loop is the shutdown
  | idle =>
    simp only [refreshEntry]
    split
    · trivial
    · split
      · next hdown => exact fun _ => hdown
      · rintro ⟨⟩
  | fetch =>
    intro r
    dsimp only
    split
    · rintro ⟨⟩
    · split <;> rintro ⟨⟩
  | install epoch blob =>
    apply lands_installMove
    intro sh' _ _
    rintro ⟨⟩
  | readView =>
    simp only [refreshEntry]
    split <;> rintro ⟨⟩
  | mark epoch => rintro ⟨⟩
  | exited => trivial

end

/-! ## The threads of a client -/

/-- The refresh thread of a client runs until it is told to exit, and the operations are in their own
    control states. -/
structure Tended (c : Client) : Prop where
  refresh : ∃ t pc, c.threads[1]? = some t ∧ t.pc = .refresh pc
  alone : ∀ (i : Nat) t pc, c.threads[i]? = some t → t.pc = .refresh pc → i = 1
  exited : ∀ t ∈ c.threads, t.pc = .refresh .exited → c.shared.readerShutdown = true
  started : c.shared.backend ≠ none → c.shared.readerStarted = true
  visits : ∀ t ∈ c.threads, ∀ r pc, t.pc = .op r pc → r.Visits pc

section

variable {u : Uuid} {name : String} {w w' w₀ : World} {a : Action} {c c' : Client} {cid : Nat}
  {sh sh' : Shared}

/-- An operation enters at a state that belongs to it. -/
theorem Request.enter_visits (r : Request) : r.Visits r.enter := by
  cases r <;> trivial

/-- A client with its four threads and nothing in its memory. -/
theorem Tended.new (options : Options) (host : Host) (created : Bool) (pc : OpenPc) (clock : Nat) :
    Tended ⟨options, host, created, {}, Client.newThreads pc clock⟩ := by
  have hthreads : ∀ t ∈ Client.newThreads pc clock, t.pc ≠ .refresh .exited ∧
      ∀ r opc, t.pc ≠ .op r opc := by
    -- none of the four threads is an operation, and the refresh thread runs
    intro t ht
    simp only [Client.newThreads, List.mem_cons, List.not_mem_nil, or_false] at ht
    rcases ht with rfl | rfl | rfl | rfl <;> exact ⟨by rintro ⟨⟩, by rintro _ _ ⟨⟩⟩
  refine ⟨⟨_, .idle, rfl, rfl⟩, ?_, ?_, ?_, ?_⟩
  · -- the second thread refreshes, no other one does
    intro i t rpc hi hpc
    rcases i with _ | _ | _ | _ | i
    · cases hi
      cases hpc
    · rfl
    · cases hi
      cases hpc
    · cases hi
      cases hpc
    · cases hi
  · intro t ht hpc
    exact absurd hpc (hthreads t ht).1
  · intro hne
    exact absurd rfl hne
  · intro t ht r opc hpc
    exact absurd hpc ((hthreads t ht).2 r opc)

/-- The handle of the log and the start of the refresh thread come in one access. -/
theorem Access.started (h : Access sh sh') (hs : sh.backend ≠ none → sh.readerStarted = true)
    (hne : sh'.backend ≠ none) : sh'.readerStarted = true := by
  cases h with
  | work hw =>
    cases hw with
    | wait hw => cases hw <;> exact hs hne
    | _ => exact hs hne
  | build => rfl
  | _ => exact hs hne

/-- **Step lemma.** -/
theorem Tended.step (ht : ∀ c, w.clients[cid]? = some c → Tended c)
    (hs : ClientStep u name w w' a cid c') : Tended c' := by
  cases hs with
  | same hc => exact ht c' hc
  | fresh options host hn heq hb =>
    subst heq
    exact .new options host false .openLog w.clock
  | invoked c r hc ha hopen heq hb =>
    subst heq
    obtain ⟨⟨t, pc, hi, hpc⟩, halone, hexited, hstarted, hvisits⟩ := ht c hc
    refine ⟨⟨t, pc, ?_, hpc⟩, ?_, ?_, hstarted, ?_⟩
    · exact (List.getElem?_append_left (lt_of_getElem?_eq_some hi)).trans hi
    · intro j t' rpc hj hpc'
      rcases Nat.lt_or_ge j c.threads.length with hlt | hge
      · exact halone j t' rpc ((List.getElem?_append_left hlt).symm.trans hj) hpc'
      · rw [List.getElem?_append_right hge] at hj
        rw [List.mem_singleton.mp (List.mem_of_getElem? hj)] at hpc'
        cases hpc'
    · intro t' ht' hpc'
      rcases List.mem_append.mp ht' with ht' | ht'
      · exact hexited t' ht' hpc'
      · rw [List.mem_singleton.mp ht'] at hpc'
        cases hpc'
    · intro t' ht' r' opc hpc'
      rcases List.mem_append.mp ht' with ht' | ht'
      · exact hvisits t' ht' r' opc hpc'
      · rw [List.mem_singleton.mp ht'] at hpc'
        cases hpc'
        exact r.enter_visits
  | closing c hc heq hb =>
    subst heq
    obtain ⟨⟨t, pc, hi, hpc⟩, halone, hexited, hstarted, hvisits⟩ := ht c hc
    refine ⟨⟨t, pc, ?_, hpc⟩, ?_, ?_, hstarted, ?_⟩
    · rw [List.getElem?_map, hi, Option.map_some, if_neg]
      rw [hpc]
      rintro ⟨⟩
    · intro j t' rpc hj hpc'
      rw [List.getElem?_map] at hj
      obtain ⟨t₀, ht₀, rfl⟩ := Option.map_eq_some_iff.mp hj
      split at hpc'
      · cases hpc'
      · exact halone j t₀ rpc ht₀ hpc'
    · intro t' ht' hpc'
      obtain ⟨t₀, ht₀, rfl⟩ := List.mem_map.mp ht'
      split at hpc'
      · cases hpc'
      · exact hexited t₀ ht₀ hpc'
    · intro t' ht' r opc hpc'
      obtain ⟨t₀, ht₀, rfl⟩ := List.mem_map.mp ht'
      split at hpc'
      · cases hpc'
      · exact hvisits t₀ ht₀ r opc hpc'
  | died c hc heq hb =>
    subst heq
    exact ⟨(ht c hc).refresh, (ht c hc).alone, (ht c hc).exited, (ht c hc).started,
      (ht c hc).visits⟩
  | ran c tid t sh pc hc htid ha heq hk hpc hmv =>
    subst heq
    obtain ⟨⟨t₁, pc₁, hi, hpc₁⟩, halone, hexited, hstarted, hvisits⟩ := ht c hc
    have htmem := List.mem_of_getElem? htid
    have haccess : Access c.shared sh := hmv.lands (Pc.move_access t.pc)
    have hkeeps := haccess.keeps
    refine ⟨?_, ?_, ?_, haccess.started hstarted, ?_⟩
    · -- a refresh thread stays one
      by_cases heq : tid = 1
      · subst heq
        rw [htid] at hi
        cases hi
        rw [hpc₁] at hpc
        obtain ⟨pc', rfl, -⟩ := hpc
        exact ⟨_, pc', List.getElem?_set_self (lt_of_getElem?_eq_some htid), rfl⟩
      · exact ⟨t₁, pc₁, (List.getElem?_set_ne heq).trans hi, hpc₁⟩
    · intro j t' rpc hj hpc'
      by_cases heq : tid = j
      · subst heq
        rw [List.getElem?_set_self (lt_of_getElem?_eq_some htid)] at hj
        cases hj
        have hpc' : pc = .refresh rpc := hpc'
        subst hpc'
        obtain ⟨rpc', hrpc⟩ := hpc.refresh
        exact halone tid t rpc' htid hrpc
      · exact halone j t' rpc ((List.getElem?_set_ne heq).symm.trans hj) hpc'
    · intro t' ht' hpc'
      rcases List.mem_or_eq_of_mem_set ht' with ht' | rfl
      · exact hkeeps.readerShutdown (hexited t' ht' hpc')
      · have hpc' : pc = .refresh .exited := hpc'
        subst hpc'
        obtain ⟨rpc, hrpc⟩ := hpc.refresh
        rw [hrpc] at hmv
        have hlands : Lands c.shared (fun sh' pc' => pc' = .refresh .exited →
            sh'.readerShutdown = true) ((Pc.refresh rpc).move name c) := by
          simp only [Pc.move]
          split
          · trivial
          · refine Lands.map ((refreshEntry_exits rpc).imp ?_)
            intro sh' pc' hexits heq
            cases heq
            exact hexits rfl
        exact hmv.lands hlands rfl
    · intro t' ht' r opc' hpc'
      rcases List.mem_or_eq_of_mem_set ht' with ht' | rfl
      · exact hvisits t' ht' r opc' hpc'
      · have hpc' : pc = .op r opc' := hpc'
        subst hpc'
        obtain ⟨opc, hop, -, -⟩ := hpc.op hmv
        rw [hop] at hmv
        exact hmv.lands_op fun lb _ => Request.run_visits (hvisits t htmem r opc hop)

/-- What holds along every run whose clients ask for stripes that fit. -/
structure Orderly (u : Uuid) (name : String) (w : World) : Prop extends Core u name w where
  unfailing : Unfailing u w
  tended : ∀ c ∈ w.clients, Tended c

/-- A step keeps the world in order. -/
theorem Orderly.step (h : Orderly u name w) (hfit : Fitting w a) (hs : w.step a = some w') :
    Orderly u name w' := by
  refine ⟨h.toCore.step hs, h.unfailing.step h.toInv h.sequencers hfit hs, ?_⟩
  intro c' hmem'
  obtain ⟨cid, hc'⟩ := List.mem_iff_getElem?.mp hmem'
  exact Tended.step (fun c hc => h.tended c (List.mem_of_getElem? hc)) (h.toInv.client_step hs hc')

/-- The world starts in order. -/
theorem Orderly.init {options : Options} {host : Host}
    (h : World.init name u options host = some w) (hfits : options.Fits) : Orderly u name w := by
  refine ⟨.init h, .init h hfits, ?_⟩
  obtain ⟨blob, b, -, -, rfl⟩ := World.init_eq h
  intro c hc
  rw [List.mem_singleton.mp hc]
  exact .new options host true _ 0

/-- A fitting run stays in order. -/
theorem Orderly.of_run {options : Options} {host : Host}
    (h₀ : World.init name u options host = some w₀) (hfits : options.Fits)
    (h : Lib.Run World.step Fitting w₀ w) : Orderly u name w :=
  h.invariant (fun _ _ _ h hfit hs => h.step hfit hs) (.init h₀ hfits)

end

/-! ## The scene of an operation -/

/-- An operation on its own. -/
structure Solo where
  request : Request
  setting : Setting
  lb : LogBackend

namespace Solo

/-- The options of its client. -/
abbrev options (s : Solo) : Options := s.setting.options

/-- The thread of the operation. -/
def caller (s : Solo) : Caller OpPc where
  setting := s.setting
  lb := s.lb
  run sh pc := s.request.run s.options s.lb sh pc
  thread := .op s.request
  own _ _ := Pc.noConfusion
  keeps hm := by
    rcases Request.run_memory hm with hq | ⟨data, v, i, seq, -, -, hdraw⟩
    · exact ⟨hq.backend, hq.aborted⟩
    · rw [hdraw.shared]
      exact ⟨rfl, rfl⟩
  moves {c pc m} hset hlb hm := by
    have hoptions : c.options = s.options := congrArg Setting.options hset
    simp only [Pc.move, hlb, hoptions, hm, Option.map_some]

/-- What the operation does as a caller. -/
@[simp] theorem caller_run (s : Solo) (sh : Shared) (pc : OpPc) :
    s.caller.run sh pc = s.request.run s.options s.lb sh pc := rfl

/-- The handle it runs with. -/
@[simp] theorem caller_lb (s : Solo) : s.caller.lb = s.lb := rfl

end Solo

section

variable {u : Uuid} {name : String} {w : World} {cid tid : Nat} {c : Client}

/-- The scene of an operation of a client that is alive. -/
theorem Orderly.shown {t : Thread} {r : Request} {pc : OpPc} (h : Orderly u name w)
    (hc : w.clients[cid]? = some c) (halive : c.shared.aborted = false)
    (ht : c.threads[tid]? = some t) (hpc : t.pc = .op r pc) :
    ∃ (s : Solo) (d : Scene OpPc), s.caller.Shows cid tid w d ∧ s.request = r ∧
      s.options = c.options ∧ d.backend = w.backend ∧ d.shared = c.shared ∧ d.pc = pc ∧
      ∃ t₁ ∈ c.threads, t₁.pc = .refresh d.refresh := by
  have hcmem := List.mem_of_getElem? hc
  obtain ⟨t₁, rpc, ht₁, hpc₁⟩ := (h.tended c hcmem).refresh
  have hsane := h.unfailing.clients c hcmem
  have hbacked := hsane.backed t (List.mem_of_getElem? ht)
  rw [hpc] at hbacked
  -- the client has a view, so it has a handle
  obtain ⟨lb, hlb⟩ : ∃ lb, c.shared.backend = some lb := by
    apply Option.ne_none_iff_exists'.mp
    intro hnone
    exact hsane.viewed hbacked.1 ((h.sequencers.seqs c hcmem).blank hnone).1
  refine ⟨⟨r, c.setting w.name, lb⟩, ⟨w.backend, c.shared, rpc, pc⟩, ⟨rfl, rfl, c, hc, ?_⟩, rfl,
    rfl, rfl, rfl, rfl, t₁, List.mem_of_getElem? ht₁, hpc₁⟩
  exact ⟨rfl, rfl, halive, hlb, ⟨t, ht, hpc⟩, ⟨t₁, ht₁, hpc₁⟩⟩

end

end ZLog
