import ZLog.System.Operations

/-!
# The invariant of the system

The stored log is well formed, the memory of every client refers to it, and every thread is in
a control state whose assertion holds.  The invariant holds in every reachable state, and from
one state to the next the stored log grows.

## Main results

- `Inv.step`: every action keeps the invariant and lets the log grow.
- `Inv.of_reaches`: the invariant holds in every reachable state.
- `Inv.run_cases`: what one step of a thread does.
-/

namespace ZLog

/-- The invariant of a client. -/
structure ClientOk (u : Uuid) (b : Store) (c : Client) : Prop where
  shared : SharedOk u b c.shared
  threads : ∀ t ∈ c.threads, PcOk u b t.pc

/-- The invariant of the system. -/
structure Inv (u : Uuid) (name : String) (w : World) : Prop where
  named : w.name = name
  log : LogOk u name w.backend
  clients : ∀ c ∈ w.clients, ClientOk u w.backend c

/-- What holds after a step of a thread. -/
def PcStep (u : Uuid) (b : Store) (sh : Shared) : Pc → Store → Pc → Prop
  | .opener _, b', pc' => ∃ pc, pc' = .opener pc ∧ OpenOk u b' pc
  | .refresh _, b', pc' => ∃ pc, pc' = .refresh pc ∧ RefreshOk u b' pc
  | .expander _, b', pc' => ∃ pc, pc' = .expander pc ∧ ExpanderOk u b' pc
  | .stripeInit _, b', pc' => ∃ pc, pc' = .stripeInit pc ∧ StripeInitOk u b' pc
  | .op r _, b', pc' => ∃ pc, pc' = .op r pc ∧ OpStep u b sh r b' pc

section

variable {u : Uuid} {name : String} {b b' : Store} {c : Client} {w w' : World}

theorem PcStep.ok {sh : Shared} {pc pc' : Pc} (h : PcStep u b sh pc b' pc') : PcOk u b' pc' := by
  cases pc with
  | opener pc =>
    obtain ⟨pc, rfl, hpc⟩ := h
    exact hpc
  | refresh pc =>
    obtain ⟨pc, rfl, hpc⟩ := h
    exact hpc
  | expander pc =>
    obtain ⟨pc, rfl, hpc⟩ := h
    exact hpc
  | stripeInit pc =>
    obtain ⟨pc, rfl, hpc⟩ := h
    exact hpc
  | op r pc =>
    obtain ⟨pc, rfl, hpc⟩ := h
    exact hpc.ok

/-- A thread that opens a log after a step was opening it before. -/
theorem PcStep.opener {b b' : Store} {sh : Shared} {pc : Pc} {opc' : OpenPc}
    (h : PcStep u b sh pc b' (.opener opc')) : ∃ opc, pc = .opener opc := by
  cases pc with
  | opener opc => exact ⟨opc, rfl⟩
  | refresh pc =>
    obtain ⟨pc, heq, -⟩ := h
    cases heq
  | expander pc =>
    obtain ⟨pc, heq, -⟩ := h
    cases heq
  | stripeInit pc =>
    obtain ⟨pc, heq, -⟩ := h
    cases heq
  | op r pc =>
    obtain ⟨pc, heq, -⟩ := h
    cases heq

theorem PcStep.refresh {b b' : Store} {sh : Shared} {pc : Pc} {rpc' : RefreshPc}
    (h : PcStep u b sh pc b' (.refresh rpc')) : ∃ rpc, pc = .refresh rpc := by
  cases pc with
  | refresh rpc => exact ⟨rpc, rfl⟩
  | op r pc =>
    obtain ⟨pc, heq, -⟩ := h
    cases heq
  | _ =>
    obtain ⟨pc, heq, -⟩ := h
    cases heq

theorem Pc.move_safe {pc : Pc} (h : LogOk u name b) (hc : SharedOk u b c.shared)
    (hpc : PcOk u b pc) : Safe u name b (PcStep u b c.shared pc) (pc.move name c) := by
  cases pc with
  | opener pc => exact Safe.map (Safe.imp (openEntry_safe h hc hpc) fun b' pc hpc => ⟨pc, rfl, hpc⟩)
  | refresh pc =>
    simp only [Pc.move]
    split
    · trivial
    · next lb hlb =>
      exact Safe.map (Safe.imp (refreshEntry_safe h hc (hc.backend lb hlb) hpc)
        fun b' pc hpc => ⟨pc, rfl, hpc⟩)
  | expander pc =>
    simp only [Pc.move]
    split
    · trivial
    · next lb hlb =>
      exact Safe.map (Safe.imp (expanderEntry_safe h hc (hc.backend lb hlb) hpc)
        fun b' pc hpc => ⟨pc, rfl, hpc⟩)
  | stripeInit pc =>
    simp only [Pc.move]
    split
    · trivial
    · next lb hlb =>
      exact Safe.map (Safe.imp (stripeInitEntry_safe h hc (hc.backend lb hlb) hpc)
        fun b' pc hpc => ⟨pc, rfl, hpc⟩)
  | op r pc =>
    simp only [Pc.move]
    split
    · trivial
    · next lb hlb =>
      exact Safe.map (Safe.imp (Request.run_safe h hc (hc.backend lb hlb) hpc)
        fun b' pc hpc => ⟨pc, rfl, hpc⟩)

/-- The backend call of a thread is an allowed one. -/
theorem Pc.move_callOk {pc : Pc} {α : Type} {call : Call Fbs.View α} {next : α → Pc}
    (h : LogOk u name b) (hc : SharedOk u b c.shared) (hpc : PcOk u b pc)
    (hm : pc.move name c = some (.backend call next)) : CallOk u name b call := by
  have hsafe := Pc.move_safe (c := c) h hc hpc
  rw [hm] at hsafe
  exact hsafe.1

/-- Entry calls are made by the operations they belong to. -/
theorem Pc.move_makes {pc : Pc} (hpc : PcOk u b pc) :
    AllCalls (fun call => call.Manages ∨ ∃ r opc, pc = .op r opc ∧ r.Makes call)
      (pc.move name c) := by
  cases pc with
  | opener pc =>
    refine AllCalls.map (openEntry_calls pc (Or.inl trivial) (fun _ => Or.inl trivial)
      (fun _ => Or.inl trivial) fun lb ppc _ _ => ?_)
    exact proposeSequencer_calls ppc (fun _ _ _ _ _ _ => Or.inl trivial) (fun _ => Or.inl trivial)
      (fun _ _ _ _ => Or.inl trivial)
  | refresh pc =>
    simp only [Pc.move]
    split
    · exact allCalls_none
    · exact (refreshEntry_calls pc (Or.inl trivial)).map
  | expander pc =>
    simp only [Pc.move]
    split
    · exact allCalls_none
    · exact (expanderEntry_calls pc fun _ _ _ => Or.inl trivial).map
  | stripeInit pc =>
    simp only [Pc.move]
    split
    · exact allCalls_none
    · exact (stripeInitEntry_calls pc fun _ _ _ _ => Or.inl trivial).map
  | op r pc =>
    simp only [Pc.move]
    split
    · exact allCalls_none
    · refine AllCalls.map ((Request.run_makes hpc).imp fun c h => ?_)
      exact h.imp id fun hmk => ⟨r, pc, rfl, hmk⟩

/-! ## Steps -/

/-- The world after a step of a thread that did not kill its client. -/
structure Stepped (w w' : World) (cid tid : Nat) (c : Client) (t : Thread) (sh : Shared) (pc : Pc) :
    Prop where
  name : w'.name = w.name
  clock : w'.clock = w.clock + 1
  clients : w'.clients = w.clients.set cid { c with
    shared := sh, threads := c.threads.set tid
      (t.goto w.clock pc (newEntries w.backend w'.backend)) }

/-- The move of a thread that makes one backend call, or one access to the memory. -/
inductive Moves (name : String) (c : Client) (pc : Pc) (b : Store) : Shared → Pc → Store → Prop where
  | call {α : Type} (call : Call Fbs.View α) (next : α → Pc) :
      pc.move name c = some (.backend call next) →
      Moves name c pc b c.shared (next (b.exec call).1) (b.exec call).2
  | access (sh : Shared) (pc' : Pc) : pc.move name c = some (.memory sh pc') →
      Moves name c pc b sh pc' b

/-- A step leads to where the move of its control state is safe to lead. -/
theorem Moves.safe {Q : Store → Pc → Prop} {pc pc' : Pc} {sh : Shared}
    (h : Moves name c pc b sh pc' b') (hs : Safe u name b Q (pc.move name c)) : Q b' pc' := by
  cases h with
  | call call next hm =>
    rw [hm] at hs
    exact hs.2
  | access sh pc' hm =>
    rw [hm] at hs
    exact hs.2

/-- The parts of a step of a thread. -/
theorem World.step_run {cid tid : Nat} (h : w.step (.run cid tid) = some w') :
    ∃ c t m, w.clients[cid]? = some c ∧ c.shared.aborted = false ∧ c.threads[tid]? = some t ∧
      t.pc.move w.name c = some m ∧ w' = w.runMove cid tid c t m := by
  simp only [World.step] at h
  split at h
  · cases h
  · next c hc =>
    split at h
    · cases h
    · next ha =>
      split at h
      · cases h
      · next t ht =>
        split at h
        · cases h
        · next m hm =>
          cases h
          exact ⟨c, t, m, hc, by simpa using ha, ht, hm, rfl⟩

/-- What one step of a thread does: its client dies, or it makes a safe move. -/
theorem Inv.run_cases (hI : Inv u name w) {cid tid : Nat}
    (h : w.step (.run cid tid) = some w') :
    ∃ c t, w.clients[cid]? = some c ∧ c.shared.aborted = false ∧ c.threads[tid]? = some t ∧
      (w' = w.setClient cid { c with shared := { c.shared with aborted := true } } ∨
        ∃ sh pc, Stepped w w' cid tid c t sh pc ∧ Kept u name w.backend w'.backend ∧
          SharedOk u w'.backend sh ∧ PcStep u w.backend c.shared t.pc w'.backend pc ∧
          Moves name c t.pc w.backend sh pc w'.backend) := by
  obtain ⟨c, t, m, hc, ha, ht, hm, rfl⟩ := World.step_run h
  refine ⟨c, t, hc, ha, ht, ?_⟩
  have hcok := hI.clients c (List.mem_of_getElem? hc)
  have hsafe := Pc.move_safe hI.log hcok.shared (hcok.threads t (List.mem_of_getElem? ht))
  rw [hI.named] at hm
  rw [hm] at hsafe
  cases m with
  | abort => exact Or.inl rfl
  | memory sh pc =>
    refine Or.inr ⟨sh, pc, ⟨rfl, rfl, ?_⟩, hI.log.kept_refl, hsafe.1, hsafe.2,
      .access sh pc hm⟩
    simp [World.runMove, World.setClient]
  | backend call next =>
    have hk := CallOk.exec hI.log hsafe.1
    exact Or.inr ⟨c.shared, next (w.backend.exec call).1, ⟨rfl, rfl, rfl⟩, hk,
      hcok.shared.mono hk.grows, hsafe.2, .call call next hm⟩

theorem ClientOk.mono (h : ClientOk u b c) (hb : LogOk u name b) (hk : Kept u name b b') :
    ClientOk u b' c :=
  ⟨h.shared.mono hk.grows, fun t ht => (h.threads t ht).mono hb hk⟩

/-- Replacing one client. -/
theorem Inv.set_client (hI : Inv u name w) {cid : Nat} {c : Client} (hname : w'.name = w.name)
    (hk : Kept u name w.backend w'.backend) (hclients : w'.clients = w.clients.set cid c)
    (hc : ClientOk u w'.backend c) : Inv u name w' := by
  refine ⟨hname.trans hI.named, hk.ok, fun c' hc' => ?_⟩
  rw [hclients] at hc'
  rcases List.mem_or_eq_of_mem_set hc' with hc' | rfl
  · exact (hI.clients c' hc').mono hI.log hk
  · exact hc

theorem newThreads_ok {pc : OpenPc} {clock : Nat} (h : OpenOk u b pc) :
    ∀ t ∈ Client.newThreads pc clock, PcOk u b t.pc := by
  intro t ht
  simp only [Client.newThreads, List.mem_cons, List.not_mem_nil, or_false] at ht
  rcases ht with rfl | rfl | rfl | rfl
  · exact h
  · trivial
  · trivial
  · trivial

/-- A client that has not started yet knows nothing. -/
theorem sharedOk_empty : SharedOk u b {} :=
  ⟨fun lb hlb => absurd hlb (by simp), fun v hv => absurd hv (by simp)⟩

/-- **Step**: every action keeps the invariant, and the log grows. -/
theorem Inv.step (hI : Inv u name w) {a : Action} (h : w.step a = some w') :
    Inv u name w' ∧ Kept u name w.backend w'.backend := by
  have hself := hI.log.kept_refl
  cases a with
  | «open» options host =>
    cases h
    refine ⟨⟨hI.named, hI.log, fun c hc => ?_⟩, hself⟩
    rcases List.mem_append.mp hc with hc | hc
    · exact hI.clients c hc
    · rw [List.mem_singleton.mp hc]
      exact ⟨sharedOk_empty, newThreads_ok trivial⟩
  | invoke cid r =>
    simp only [World.step] at h
    split at h
    · cases h
    · next c hc =>
      split at h
      · cases h
        have hcok := hI.clients c (List.mem_of_getElem? hc)
        refine ⟨hI.set_client rfl hself rfl ⟨hcok.shared, fun t ht => ?_⟩, hself⟩
        rcases List.mem_append.mp ht with ht | ht
        · exact hcok.threads t ht
        · rw [List.mem_singleton.mp ht]
          exact r.enter_ok
      · cases h
  | close cid =>
    simp only [World.step] at h
    split at h
    · cases h
    · next c hc =>
      split at h
      · cases h
        have hcok := hI.clients c (List.mem_of_getElem? hc)
        refine ⟨hI.set_client rfl hself rfl ⟨hcok.shared, fun t ht => ?_⟩, hself⟩
        obtain ⟨t', ht', rfl⟩ := List.mem_map.mp ht
        split
        · trivial
        · exact hcok.threads t' ht'
      · cases h
  | run cid tid =>
    obtain ⟨c, t, hc, -, ht, rfl | ⟨sh, pc, hst, hk, hsh, hpc, -⟩⟩ := hI.run_cases h
    · have hcok := hI.clients c (List.mem_of_getElem? hc)
      exact ⟨hI.set_client rfl hself rfl ⟨hcok.shared.congr rfl rfl, hcok.threads⟩, hself⟩
    · have hcok := (hI.clients c (List.mem_of_getElem? hc)).mono hI.log hk
      refine ⟨hI.set_client hst.name hk hst.clients ⟨hsh, fun t' ht' => ?_⟩, hk⟩
      rcases List.mem_or_eq_of_mem_set ht' with ht' | rfl
      · exact hcok.threads t' ht'
      · exact hpc.ok

/-! ## Initial state -/

/-- A log with one view and no objects. -/
theorem logOk_new {proj : ProjectionObject Fbs.View} {blob : Fbs.View} {v : View} {L : Layout}
    {n : Nat} (hb : b.blackhole = false) (hname : name ≠ "")
    (hlink : b.objects.lookup ("head." ++ name) = some (.link u.hoid))
    (hhead : b.objects.lookup u.hoid = some (.projection proj)) (hpfx : proj.pfx = u.pfx)
    (hepoch : proj.epoch = 1)
    (hproj : proj.projections.toList = Lib.OrderedMap.numbered 1 [blob])
    (hnone : ∀ s i, b.objects.lookup (dataOid u s i) = none)
    (hd : View.decode blob = .ok v) (hstor : v.Storable) (hcfg : v.seqConfig = none)
    (hlay : v.objectMap.HasLayout L n) : LogOk u name b := by
  have hviews : viewsOf u b = [v] := viewsOf_eq hhead hproj (by simp [hd])
  have hstored : v.stored = v := by
    unfold View.stored
    rw [hcfg]
    cases v
    rw [View.mk.injEq]
    exact ⟨rfl, hcfg.symm⟩
  have hat : ∀ e v', ViewAt [v] e v' → v' = v := fun e v' hv => List.mem_singleton.mp hv.mem
  refine ⟨hb, ⟨⟨proj, [blob], hhead, hpfx, hepoch, hproj, ?_⟩, hname, hlink⟩, ?_,
    fun s i => Or.inl (hnone s i), ?_⟩
  · rw [hviews]
    simp [hd]
  · rw [hviews]
    refine ⟨by simp, ⟨L, ?_⟩, ?_, ?_, ?_⟩
    · intro v' hv'
      rw [List.mem_singleton.mp hv']
      exact hlay.self
    · intro v' hv'
      rw [List.mem_singleton.mp hv']
      exact ⟨hstor, hstored⟩
    · intro e v₁ v₂ h₁ h₂
      have hle := h₂.le_length
      have hpos := h₁.1
      simp only [List.length_singleton] at hle
      omega
    · intro e v' c hv' hc
      rw [hat e v' hv', hcfg] at hc
      cases hc
  · intro s i o ho
    rw [objectAt, RAMBackend.logAt_eq_some, hnone s i] at ho
    cases ho

/-- A new log has no objects. -/
theorem lookup_createLog {blob : Fbs.View} {x : String × String}
    (h : ({} : Store).createLog name blob u.text = (.ok x, b)) (s i : Nat) :
    b.objects.lookup (dataOid u s i) = none := by
  obtain ⟨-, rfl⟩ := RAMBackend.createLog_ok h
  show AList.lookup _ (AList.insert _ _ (AList.insert _ _ _)) = none
  rw [AList.lookup_insert_ne (dataOid_ne_link u s i name),
    AList.lookup_insert_ne (dataOid_ne_hoid u s i)]
  exact AList.lookup_empty _

/-- The head object right after the creation of a log. -/
theorem createLog_head {blob : Fbs.View} {x : String × String}
    (h : ({} : Store).createLog name blob u.text = (.ok x, b)) :
    x = (u.hoid, u.pfx) ∧ name ≠ "" ∧ b.blackhole = false ∧
      b.objects.lookup ("head." ++ name) = some (.link u.hoid) ∧
      ∃ proj, b.objects.lookup u.hoid = some (.projection proj) ∧ proj.pfx = u.pfx ∧
        proj.epoch = 1 ∧ proj.projections.toList = Lib.OrderedMap.numbered 1 [blob] := by
  obtain ⟨-, hb⟩ := RAMBackend.createLog_ok h
  unfold RAMBackend.createLog at h
  split at h
  · cases h
  · next hname =>
    split at h
    · cases h
    · split at h
      · cases h
      · cases h
        have hlink : u.hoid ≠ "head." ++ name := by
          have := link_ne_key name (.head u)
          rw [Key.head_name] at this
          exact this
        rw [hb]
        exact ⟨rfl, hname, rfl, AList.lookup_insert _, _,
          (AList.lookup_insert_ne hlink).trans (AList.lookup_insert _), rfl, rfl, rfl⟩

/-- The stored log right after its creation. -/
theorem logOk_createLog {options : Options} {blob : Fbs.View} {x : String × String}
    (hblob : View.createInitial options = .ok blob)
    (h : ({} : Store).createLog name blob u.text = (.ok x, b)) : LogOk u name b := by
  obtain ⟨-, hname, hbh, hlink, proj, hhead, hpfx, hepoch, hproj⟩ := createLog_head h
  obtain ⟨v, hd, hstor, hcfg, -, L, n, hlay, -, -⟩ := View.createInitial_ok hblob
  exact logOk_new hbh hname hlink hhead hpfx hepoch hproj (lookup_createLog h) hd hstor hcfg hlay

/-- The initial world. -/
theorem World.init_eq {options : Options} {host : Host}
    (h : World.init name u options host = some w) :
    ∃ blob b, View.createInitial options = .ok blob ∧
      ({} : Store).createLog name blob u.text = (.ok (u.hoid, u.pfx), b) ∧
      w = { name := name, backend := b,
            clients := [⟨options, host, true, {},
              Client.newThreads (.uniqueId u.hoid u.pfx) 0⟩], clock := 1 } := by
  unfold World.init at h
  split at h
  · cases h
  · next blob hblob =>
    split at h
    · next hoid pfx b hcreate =>
      obtain ⟨rfl, rfl⟩ := Prod.mk.inj (createLog_head hcreate).1
      cases h
      exact ⟨blob, b, hblob, hcreate, rfl⟩
    · cases h

/-- A new log has one view, without a sequencer. -/
theorem viewsOf_init {options : Options} {host : Host}
    (h : World.init name u options host = some w) :
    ∃ v, viewsOf u w.backend = [v] ∧ v.seqConfig = none := by
  obtain ⟨blob, b, hblob, hcreate, rfl⟩ := World.init_eq h
  obtain ⟨-, -, -, -, proj, hhead, -, -, hproj⟩ := createLog_head hcreate
  obtain ⟨v, hd, -, hcfg, -⟩ := View.createInitial_ok hblob
  exact ⟨v, viewsOf_eq hhead hproj (by simp [hd]), hcfg⟩

theorem Inv.init {options : Options} {host : Host} (h : World.init name u options host = some w) :
    Inv u name w := by
  obtain ⟨blob, b, hblob, hcreate, rfl⟩ := World.init_eq h
  refine ⟨rfl, logOk_createLog hblob hcreate, fun c hc => ?_⟩
  rw [List.mem_singleton.mp hc]
  exact ⟨sharedOk_empty, newThreads_ok ⟨rfl, rfl⟩⟩

theorem logAt_init {options : Options} {host : Host} {s i : Nat}
    (h : World.init name u options host = some w) : w.backend.logAt (dataOid u s i) = none := by
  obtain ⟨blob, b, -, hcreate, rfl⟩ := World.init_eq h
  unfold RAMBackend.logAt
  rw [lookup_createLog hcreate]

/-! ## Runs -/

/-- **Invariant**: it holds in every reachable state. -/
theorem Inv.of_reaches (hI : Inv u name w) (h : Lib.Reaches World.step w w') : Inv u name w' :=
  h.invariant (fun _ _ _ hI _ hs => (hI.step hs).1) hI

/-- The log grows along every run. -/
theorem Inv.kept (hI : Inv u name w) (h : Lib.Reaches World.step w w') :
    Kept u name w.backend w'.backend := by
  refine ⟨(hI.of_reaches h).log, ?_⟩
  exact h.relation (R := fun t v => Grows u t.backend v.backend) (I := Inv u name)
    (fun t => .refl u t.backend) (fun _ _ _ => .trans) (fun _ _ _ hI _ hs => (hI.step hs).1)
    (fun _ _ _ hI _ hs => (hI.step hs).2.grows) hI

end

end ZLog
