import ZLog.System.Invariant

/-!
# Clients over another backend

A client reaches its backend through calls only.  When two backends answer the calls of the clients
alike and stay related, every run of the clients over the one is a run over the other: what is known
of the clients over the RAM backend then holds over the other one too.

## Main results

- `Simulates.run`: every run over the other backend is a run over the RAM backend.
- `Simulates.drives`: the same actions drive both, and the same ones are enabled throughout.
-/

namespace ZLog

/-- A backend: its calls, each of them one atomic step. -/
class Backend (S : Type) where
  exec : S → {α : Type} → Call Fbs.View α → α × S

/-- Clients on one log over a backend. -/
structure WorldOver (S : Type) where
  name : String
  backend : S
  clients : List Client
  clock : Nat := 0

/-- The entry that a call is about. -/
def Call.position? {ν : Type} : {α : Type} → Call ν α → Option Nat
  | _, .read _ _ position => some position
  | _, .write _ _ _ position => some position
  | _, .fill _ _ position => some position
  | _, .trim _ _ position _ _ => some position
  | _, _ => none

/-- The position of the call that a move makes. -/
def Move.position? {σ : Type} : Option (Move σ) → Option Nat
  | some (.backend call _) => call.position?
  | _ => none

namespace WorldOver

variable {S : Type} [Backend S]

/-- One client is replaced, and time goes on. -/
def setClient (w : WorldOver S) (cid : Nat) (c : Client) : WorldOver S :=
  { w with clients := w.clients.set cid c, clock := w.clock + 1 }

/-- Executes the move of a thread. -/
def runMove (w : WorldOver S) (cid tid : Nat) (c : Client) (t : Thread) : Move Pc → WorldOver S
  | .abort => w.setClient cid { c with shared := { c.shared with aborted := true } }
  | .memory shared pc =>
    w.setClient cid { c with shared := shared, threads := c.threads.set tid (t.goto w.clock pc []) }
  | .backend call next =>
    let (reply, backend) := Backend.exec w.backend call
    { w.setClient cid { c with
        threads := c.threads.set tid (t.goto w.clock (next reply) []) } with backend := backend }

/-- One action; `none` when it is not enabled. -/
def step (w : WorldOver S) : Action → Option (WorldOver S)
  -- a process starts to open the log
  | .open options host =>
    some { w with clients := w.clients ++ [Client.new options host w.clock], clock := w.clock + 1 }
  -- an operation starts on an open log
  | .invoke cid request =>
    match w.clients[cid]? with
    | none => none
    | some c =>
      if c.isOpen then
        some (w.setClient cid
          { c with threads := c.threads ++ [⟨.op request request.enter, w.clock, none, []⟩] })
      else none
  -- the destructor waits for the operations to return
  | .close cid =>
    match w.clients[cid]? with
    | none => none
    | some c =>
      if c.isOpen && !c.busy then
        some (w.setClient cid
          { c with threads := c.threads.map (fun t =>
              if t.pc = .opener .opened then { t with pc := .opener .shutdownManager } else t) })
      else none
  -- one step of one thread
  | .run cid tid =>
    match w.clients[cid]? with
    | none => none
    | some c =>
      if c.shared.aborted then none
      else
        match c.threads[tid]? with
        | none => none
        | some t =>
          match t.pc.move w.name c with
          | none => none
          | some move => some (w.runMove cid tid c t move)

/-- The position of the call that a step makes is below `bound`. -/
def CallsBelow (bound : Nat) (w : WorldOver S) : Action → Prop
  | .run cid tid => ∀ c ∈ w.clients[cid]?, ∀ t ∈ c.threads[tid]?,
      ∀ p ∈ Move.position? (t.pc.move w.name c), p < bound
  | _ => True

/-- Whether a call is below the bound can be computed. -/
instance decidableCallsBelow (bound : Nat) (w : WorldOver S) :
    (a : Action) → Decidable (CallsBelow bound w a)
  | .run cid tid => inferInstanceAs (Decidable (∀ c ∈ w.clients[cid]?, ∀ t ∈ c.threads[tid]?,
      ∀ p ∈ Move.position? (t.pc.move w.name c), p < bound))
  | .open .. => isTrue trivial
  | .invoke .. => isTrue trivial
  | .close _ => isTrue trivial

/-- A step whose call is about a position below `bound`. -/
def stepBelow (bound : Nat) (v : WorldOver S) (a : Action) : Option (WorldOver S) :=
  if v.CallsBelow bound a then v.step a else none

end WorldOver

/-! ## Clients without their records -/

/-- The thread without the record of the entries it created. -/
def Thread.forget (t : Thread) : Thread := { t with created := [] }

/-- The client, of which one sees no such records. -/
def Client.forget (c : Client) : Client := { c with threads := c.threads.map Thread.forget }

/-- The clients over the two backends are the same. -/
structure Mirrors {S : Type} (w : World) (v : WorldOver S) : Prop where
  name : v.name = w.name
  clock : v.clock = w.clock
  clients : v.clients = w.clients.map Client.forget

/-- Related backends answer every call of the clients alike, up to the position `bound`, and stay
    related. -/
structure Simulates {S : Type} [Backend S] (u : Uuid) (name : String) (bound : Nat)
    (R : Store → S → Prop) : Prop where
  call : ∀ {b : Store} {s : S} {α : Type} {call : Call Fbs.View α}, R b s → LogOk u name b →
    CallOk u name b call → (∀ p ∈ call.position?, p < bound) →
    (Backend.exec s call).1 = (b.exec call).1 ∧ R (b.exec call).2 (Backend.exec s call).2

section

variable {S : Type} {u : Uuid} {name : String} {bound : Nat} {R : Store → S → Prop}
  {w w₀ : World} {v v' v₀ : WorldOver S} {a : Action} {c c' : Client} {cid : Nat}

/-- Forgetting the new entries keeps the control state. -/
@[simp] theorem Thread.forget_pc (t : Thread) : t.forget.pc = t.pc := rfl

/-- And whether the log is open. -/
theorem Client.forget_isOpen (c : Client) : c.forget.isOpen = c.isOpen := by
  simp only [Client.isOpen, Client.forget, List.any_map]
  rfl

/-- And whether an operation runs. -/
theorem Client.forget_busy (c : Client) : c.forget.busy = c.busy := by
  simp only [Client.busy, Client.forget, List.any_map]
  rfl

/-- And the move of a thread. -/
theorem Pc.move_forget (name : String) (c : Client) (pc : Pc) :
    pc.move name c.forget = pc.move name c := by
  cases pc <;> rfl

/-- A thread that has moved, with its new entries forgotten. -/
theorem Client.forget_set (c : Client) (sh : Shared) (tid : Nat) (t : Thread) :
    Client.forget { c with shared := sh, threads := c.threads.set tid t } =
      { c.forget with shared := sh, threads := c.forget.threads.set tid t.forget } := by
  simp only [Client.forget, List.map_set]

/-- A client that closes, with its new entries forgotten. -/
theorem Client.forget_close (c : Client) :
    Client.forget { c with threads := c.threads.map (fun t =>
        if t.pc = .opener .opened then { t with pc := .opener .shutdownManager } else t) } =
      { c.forget with threads := c.forget.threads.map (fun t =>
        if t.pc = .opener .opened then { t with pc := .opener .shutdownManager } else t) } := by
  simp only [Client.forget, List.map_map]
  congr 1
  apply List.map_congr_left
  intro t _
  simp only [Function.comp_apply]
  by_cases hpc : t.pc = .opener .opened
  · have hpc' : t.forget.pc = .opener .opened := hpc
    rw [if_pos hpc, if_pos hpc']
    rfl
  · have hpc' : ¬ t.forget.pc = .opener .opened := hpc
    rw [if_neg hpc, if_neg hpc']

/-- The client of the same number on the other side. -/
theorem Mirrors.get (hm : Mirrors w v) (hc : v.clients[cid]? = some c') :
    ∃ c, w.clients[cid]? = some c ∧ c' = c.forget := by
  rw [hm.clients, List.getElem?_map] at hc
  obtain ⟨c, hget, heq⟩ := Option.map_eq_some_iff.mp hc
  exact ⟨c, hget, heq.symm⟩

/-- A client is replaced on both sides. -/
theorem Mirrors.setClient (hm : Mirrors w v) (cid : Nat) (hc : c' = c.forget) :
    Mirrors (w.setClient cid c) (v.setClient cid c') where
  name := hm.name
  clock := congrArg (· + 1) hm.clock
  clients := by
    show v.clients.set cid c' = (w.clients.set cid c).map Client.forget
    rw [hm.clients, List.map_set, hc]

variable [Backend S]

/-- The move of a thread over the other backend. -/
theorem Simulates.runMove (hR : Simulates u name bound R) (hm : Mirrors w v)
    (hr : R w.backend v.backend) (hI : Inv u name w) {tid : Nat} {t : Thread} (hc : c ∈ w.clients)
    (ht : t ∈ c.threads) {m : Move Pc} (hmove : t.pc.move name c = some m)
    (hbelow : ∀ p ∈ Move.position? (some m), p < bound) :
    Mirrors (w.runMove cid tid c t m) (v.runMove cid tid c.forget t.forget m) ∧
      R (w.runMove cid tid c t m).backend (v.runMove cid tid c.forget t.forget m).backend := by
  -- memory steps do not see the backend; a call is answered alike by both
  cases m with
  | abort => exact ⟨hm.setClient cid rfl, hr⟩
  | memory sh pc =>
    refine ⟨hm.setClient cid ?_, hr⟩
    rw [hm.clock]
    exact (c.forget_set sh tid (t.goto w.clock pc [])).symm
  | backend call next =>
    have hcok := hI.clients c hc
    have hcall := Pc.move_callOk hI.log hcok.shared (hcok.threads t ht) hmove
    obtain ⟨hreply, hr'⟩ := hR.call hr hI.log hcall hbelow
    refine ⟨⟨hm.name, congrArg (· + 1) hm.clock, ?_⟩, hr'⟩
    simp only [WorldOver.runMove, World.runMove, WorldOver.setClient, World.setClient]
    rw [hreply, hm.clock, hm.clients, List.map_set]
    congr 1
    exact (c.forget_set c.shared tid (t.goto w.clock (next (w.backend.exec call).1)
      (newEntries w.backend (w.backend.exec call).2))).symm

/-- **One step** over the other backend is a step over the RAM backend. -/
theorem Simulates.step (hR : Simulates u name bound R) (hm : Mirrors w v)
    (hr : R w.backend v.backend) (hI : Inv u name w) (hbelow : v.CallsBelow bound a)
    (h : v.step a = some v') :
    ∃ w', w.step a = some w' ∧ Mirrors w' v' ∧ R w'.backend v'.backend := by
  -- the action is one of the same client, on a world that shows the same
  cases a with
  | «open» options host =>
    cases h
    refine ⟨_, rfl, ⟨hm.name, congrArg (· + 1) hm.clock, ?_⟩, hr⟩
    show v.clients ++ [_] = (w.clients ++ [_]).map Client.forget
    rw [hm.clients, List.map_append, hm.clock]
    rfl
  | invoke cid r =>
    simp only [WorldOver.step] at h
    split at h
    · cases h
    · next c' hc' =>
      obtain ⟨c, hc, rfl⟩ := hm.get hc'
      split at h
      · next hopen =>
        cases h
        rw [c.forget_isOpen] at hopen
        have hstep : w.step (.invoke cid r) = some (w.setClient cid
            { c with threads := c.threads ++ [⟨.op r r.enter, w.clock, none, []⟩] }) := by
          simp only [World.step, hc]
          rw [if_pos hopen]
        refine ⟨_, hstep, hm.setClient cid ?_, hr⟩
        simp only [Client.forget, List.map_append, hm.clock]
        rfl
      · cases h
  | close cid =>
    simp only [WorldOver.step] at h
    split at h
    · cases h
    · next c' hc' =>
      obtain ⟨c, hc, rfl⟩ := hm.get hc'
      split at h
      · next hopen =>
        cases h
        rw [c.forget_isOpen, c.forget_busy] at hopen
        have hstep : w.step (.close cid) = some (w.setClient cid
            { c with threads := c.threads.map (fun t =>
                if t.pc = .opener .opened then { t with pc := .opener .shutdownManager }
                else t) }) := by
          simp only [World.step, hc]
          rw [if_pos hopen]
        exact ⟨_, hstep, hm.setClient cid c.forget_close.symm, hr⟩
      · cases h
  -- the thread has the same move on both sides
  | run cid tid =>
    simp only [WorldOver.step] at h
    split at h
    · cases h
    · next c' hc' =>
      obtain ⟨c, hc, rfl⟩ := hm.get hc'
      split at h
      · cases h
      · next hsound =>
        have halive : ¬ c.shared.aborted = true := hsound
        split at h
        · cases h
        · next t' ht' =>
          obtain ⟨t, ht, rfl⟩ : ∃ t, c.threads[tid]? = some t ∧ t.forget = t' := by
            simpa only [Client.forget, List.getElem?_map, Option.map_eq_some_iff] using ht'
          have hmove : t.forget.pc.move v.name c.forget = t.pc.move name c := by
            rw [Thread.forget_pc, Pc.move_forget, hm.name, hI.named]
          split at h
          · cases h
          · next m hmv =>
            cases h
            have hm' : t.pc.move name c = some m := hmove.symm.trans hmv
            have hstep : w.step (.run cid tid) = some (w.runMove cid tid c t m) := by
              simp only [World.step, hc, ht, hI.named, hm']
              rw [if_neg halive]
            have hpos : ∀ p ∈ Move.position? (some m), p < bound := by
              intro p hp
              rw [← hmv] at hp
              exact hbelow _ hc' _ ht' p hp
            exact ⟨_, hstep, hR.runMove hm hr hI (List.mem_of_getElem? hc)
              (List.mem_of_getElem? ht) hm' hpos⟩

/-- **Simulation**: every run of the clients over the other backend is one over the RAM backend,
    with the same clients at the end. -/
theorem Simulates.run {options : Options} {host : Host} (hR : Simulates u name bound R)
    (h₀ : World.init name u options host = some w₀) (hm : Mirrors w₀ v₀)
    (hr : R w₀.backend v₀.backend) (h : Lib.Run WorldOver.step (WorldOver.CallsBelow bound) v₀ v) :
    ∃ w, Lib.Reaches World.step w₀ w ∧ Mirrors w v ∧ R w.backend v.backend := by
  induction h with
  | refl => exact ⟨w₀, .refl, hm, hr⟩
  | tail hrun hbelow hs ih =>
    obtain ⟨w, hw, hm, hr⟩ := ih
    have hI := (Inv.init h₀).of_reaches hw
    obtain ⟨w', hs', hm', hr'⟩ := hR.step hm hr hI hbelow hs
    exact ⟨w', .tail hw trivial hs', hm', hr'⟩

/-- Whether an action is enabled depends on the clients only. -/
theorem Mirrors.enabled (hm : Mirrors w v) (a : Action) : (v.step a).isSome = (w.step a).isSome := by
  have hget : ∀ cid : Nat, v.clients[cid]? = (w.clients[cid]?).map Client.forget := by
    intro cid
    rw [hm.clients, List.getElem?_map]
  -- whether an action is possible is seen in the clients alone
  cases a with
  | «open» options host => rfl
  | invoke cid r =>
    simp only [WorldOver.step, World.step, hget]
    cases w.clients[cid]? with
    | none => rfl
    | some c =>
      simp only [Option.map_some, c.forget_isOpen]
      cases c.isOpen <;> rfl
  | close cid =>
    simp only [WorldOver.step, World.step, hget]
    cases w.clients[cid]? with
    | none => rfl
    | some c =>
      simp only [Option.map_some, c.forget_isOpen, c.forget_busy]
      cases c.isOpen && !c.busy <;> rfl
  | run cid tid =>
    simp only [WorldOver.step, World.step, hget]
    cases w.clients[cid]? with
    | none => rfl
    | some c =>
      have hthreads : c.forget.threads[tid]? = (c.threads[tid]?).map Thread.forget :=
        List.getElem?_map ..
      simp only [Option.map_some, hthreads]
      show (if c.shared.aborted = true then none else _ : Option (WorldOver S)).isSome = _
      cases c.shared.aborted with
      | true => rfl
      | false =>
        simp only [Bool.false_eq_true, if_false]
        cases c.threads[tid]? with
        | none => rfl
        | some t =>
          simp only [Option.map_some, Thread.forget_pc, Pc.move_forget, hm.name]
          cases t.pc.move w.name c <;> rfl

/-- **Lockstep**: the actions that drive the clients over the other backend drive them over the RAM
    backend, and after each of them the clients are the same and the same actions are enabled. -/
theorem Simulates.drives (hR : Simulates u name bound R) (hI : Inv u name w₀) (hm : Mirrors w₀ v₀)
    (hr : R w₀.backend v₀.backend) {before after : List Action}
    (h : Lib.exec (WorldOver.stepBelow bound) v₀ (before ++ after) = some v) :
    ∃ w₁ v₁, Lib.exec World.step w₀ before = some w₁ ∧
      Lib.exec (WorldOver.stepBelow bound) v₀ before = some v₁ ∧ Mirrors w₁ v₁ ∧
      ∀ a, (v₁.step a).isSome = (w₁.step a).isSome := by
  have hmatch : ∀ v w a v', (Mirrors w v ∧ R w.backend v.backend ∧ Inv u name w) →
      WorldOver.stepBelow bound v a = some v' → ∃ w', w.step a = some w' ∧
        (Mirrors w' v' ∧ R w'.backend v'.backend ∧ Inv u name w') := by
    rintro v w a v' ⟨hm, hr, hI⟩ hs
    simp only [WorldOver.stepBelow] at hs
    split at hs
    · next hbelow =>
      obtain ⟨w', hs', hm', hr'⟩ := hR.step hm hr hI hbelow hs
      exact ⟨w', hs', hm', hr', (hI.step hs').1⟩
    · cases hs
  obtain ⟨v₁, hv₁, -⟩ := Lib.exec_append h
  obtain ⟨w₁, hw₁, hm₁, -⟩ := Lib.exec_lockstep hmatch ⟨hm, hr, hI⟩ hv₁
  exact ⟨w₁, v₁, hw₁, hv₁, hm₁, hm₁.enabled⟩

end

end ZLog
