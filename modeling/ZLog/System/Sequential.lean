import ZLog.System.Midway

/-!
# Operations one at a time

One client after the other opens the log, and issues its operations one at a time.  Every answer is
then the answer of the abstract log: each operation is one step of it, and opening the log starts its
counter behind the greatest position in use.

The threads that show something are listed in the order in which they were started; the operation
that is under way is the last of them.

## Main results

- `Sequential.step`: what a step keeps.
- `sequential_refinement`: the history is one of the abstract log.
-/

namespace ZLog

/-- What a user sees of a thread: that the log was opened, or what an operation has returned. -/
def Pc.event? : Pc → Option SharedLog.Event
  | .opener _ => some .opened
  | .op r (.done result) => some (.returned r result)
  | _ => none

/-- What the users have seen of the log. -/
def World.history (w : World) : List SharedLog.Event := w.collect Pc.event?

/-- A client opens the log when all others are over, and an operation starts when none is under
    way. -/
def OneAtATime (w : World) : Action → Prop
  | .open .. => ∀ c ∈ w.clients, c.ended = true
  | .invoke .. => ∀ c ∈ w.clients, c.busy = false
  | _ => True

instance decidableOneAtATime (w : World) : (a : Action) → Decidable (OneAtATime w a)
  | .open .. => inferInstanceAs (Decidable (∀ c ∈ w.clients, c.ended = true))
  | .invoke .. => inferInstanceAs (Decidable (∀ c ∈ w.clients, c.busy = false))
  | .close _ => isTrue trivial
  | .run .. => isTrue trivial

/-- An opening thread, wherever it is, or an operation. -/
def Pc.shown? : Pc → Option Pc
  | .opener _ => some (.opener .openLog)
  | .op r opc => some (.op r opc)
  | _ => none

/-- The threads that show something. -/
def World.trace (w : World) : List Pc := w.collect Pc.shown?

/-- What shows of the operation that is under way. -/
def shownOf (cur : Option (Request × OpPc)) : Option Pc := cur.map fun x => .op x.1 x.2

/-- Operations have been issued one at a time: `l` is the abstract log, `n` positions were handed
    out, and `cur` is under way. -/
structure Sequential (u : Uuid) (name : String) (w : World) (l : SharedLog) (n : Nat)
    (cur : Option (Request × OpPc)) : Prop extends OneSession u name w n where
  run : SharedLog.Run SharedLog.Tail w.history l
  /-- The operation that is under way comes last. -/
  trace : ∃ past, w.trace = past ++ (shownOf cur).toList ∧
    ∀ r opc, .op r opc ∈ past → ¬ opc.InFlight
  flight : ∀ r opc, cur = some (r, opc) → opc.InFlight
  midway : Midway u w.backend l n cur
  backed : BackedObjects u w.backend
  /-- Until the client has its sequencer, the counter is behind the positions in use. -/
  tail : ∀ (i : Nat) (c : Client), w.clients[i]? = some c → i + 1 = w.clients.length →
    c.shared.seqs = [] → l.Tail n

section

variable {u : Uuid} {name : String} {w w' w₀ : World} {a : Action} {c c' : Client} {cid tid n : Nat}
  {t t' : Thread} {l : SharedLog} {cur : Option (Request × OpPc)} {exempt : Nat → Prop}

/-! ## The trace -/

theorem ofThreads_shown : OfThreads Pc.shown? where
  opener _ _ := rfl
  other := by
    intro pc hopener hop
    cases pc with
    | opener opc => exact absurd rfl (hopener opc)
    | op r opc => exact absurd rfl (hop r opc)
    | _ => rfl

/-- The history is what the trace shows. -/
theorem World.history_eq (w : World) : w.history = w.trace.filterMap Pc.event? := by
  -- an event shows only on a thread that shows
  have hshown : ∀ pc : Pc, pc.event? = pc.shown?.bind Pc.event? := by
    intro pc
    cases pc <;> rfl
  unfold World.history World.trace World.collect
  rw [List.filterMap_flatMap]
  congr 1
  funext c
  unfold Client.collect
  rw [List.filterMap_filterMap]
  congr 1
  funext t
  exact hshown t.pc

theorem event?_of_inFlight {r : Request} {opc : OpPc} (h : opc.InFlight) :
    (Pc.op r opc).event? = none := by
  cases opc with
  | done result => exact absurd rfl (h result)
  | _ => rfl

/-- The operation that is under way is not part of the history. -/
theorem World.history_past {past : List Pc} {r : Request} {opc : OpPc}
    (h : w.trace = past ++ [.op r opc]) (hf : opc.InFlight) :
    w.history = past.filterMap Pc.event? := by
  rw [World.history_eq, h, List.filterMap_append, List.filterMap_cons_none (event?_of_inFlight hf),
    List.filterMap_nil, List.append_nil]

/-- An operation of the trace is that of a thread. -/
theorem World.mem_trace {r : Request} {opc : OpPc} (h : .op r opc ∈ w.trace) :
    ∃ c ∈ w.clients, ∃ t ∈ c.threads, t.pc = .op r opc := by
  obtain ⟨c, hc, h⟩ := List.mem_flatMap.mp h
  obtain ⟨t, ht, h⟩ := List.mem_filterMap.mp h
  refine ⟨c, hc, t, ht, ?_⟩
  cases hpc : t.pc with
  | op r' opc' =>
    rw [hpc] at h
    cases h
    rfl
  | _ =>
    rw [hpc] at h
    cases h

/-- The operation that is under way is that of a running thread. -/
theorem Sequential.current (hS : Sequential u name w l n cur) {r : Request} {opc : OpPc}
    (hcur : cur = some (r, opc)) : ∃ c ∈ w.clients, ∃ t ∈ c.threads, t.Running := by
  obtain ⟨past, htrace, -⟩ := hS.trace
  have hmem : .op r opc ∈ w.trace := by
    rw [htrace, hcur]
    exact List.mem_append_right _ List.mem_cons_self
  obtain ⟨c, hc, t, ht, hpc⟩ := World.mem_trace hmem
  exact ⟨c, hc, t, ht, r, opc, hpc, hS.flight r opc hcur⟩

theorem Sequential.at_rest (hS : Sequential u name w l n cur)
    (hidle : ∀ c ∈ w.clients, ∀ t ∈ c.threads, ¬ t.Running) : cur = none := by
  cases hcur : cur with
  | none => rfl
  | some x =>
    obtain ⟨c, hc, t, ht, hr⟩ := hS.current hcur
    exact absurd hr (hidle c hc t ht)

theorem Client.not_busy (h : c.busy = false) (ht : t ∈ c.threads) : ¬ t.Running := by
  rintro ⟨r, opc, hpc, hflight⟩
  have hfalse := List.any_eq_false.mp h t ht
  rw [hpc] at hfalse
  cases opc with
  | done result => exact hflight result rfl
  | _ => exact hfalse rfl

/-- An open log belongs to the last client. -/
theorem OneSession.open_last (hS : OneSession u name w n) (hc : w.clients[cid]? = some c)
    (hopen : c.isOpen = true) : cid + 1 = w.clients.length := by
  -- an earlier client is over, and its log is not open
  have hlt := lt_of_getElem?_eq_some hc
  by_contra hne
  have hmem := List.mem_of_getElem? hc
  have hlife := hS.life c hmem
  have hend := (Client.ended_spec hlife (hS.ended cid c hc (by omega))).2
  obtain ⟨t, pc, ht, hpc, -⟩ := hlife.opener
  obtain rfl := hlife.opened hopen ht hpc
  rcases hend t (List.mem_of_getElem? ht) _ hpc with heq | ⟨e, heq⟩
  · cases heq
  · cases heq

/-! ## Seeds -/

/-- While a client proposes itself, no operation is under way. -/
theorem Sequential.proposing (hS : Sequential u name w l n cur) (hc : c ∈ w.clients)
    (ht : t ∈ c.threads) {pc : ProposePc} (hpc : t.pc = .opener (.propose pc)) : cur = none := by
  apply hS.at_rest
  intro d hd t₁ ht₁ hr
  -- the operation runs on an open log of the last client; the proposer is that client, or an
  -- earlier one
  obtain ⟨i, hi⟩ := List.mem_iff_getElem?.mp hd
  obtain ⟨j, hj⟩ := List.mem_iff_getElem?.mp hc
  have hlast := hS.running_last hi ht₁ hr
  by_cases hij : j = i
  · -- an open log has been proposed before
    subst hij
    rw [hi] at hj
    cases hj
    obtain ⟨t₀, pc₀, ht₀, hpc₀, hopen, -⟩ := (hS.life c hc).opener
    have heq := (hS.life c hc).opener_unique ht (List.mem_of_getElem? ht₀) hpc hpc₀
    rw [hopen ⟨t₁, ht₁, hr⟩] at heq
    cases heq
  · -- an earlier client proposes nothing any more
    have hlt := lt_of_getElem?_eq_some hj
    have hend := (Client.ended_spec (hS.life c hc) (hS.ended j c hj (by omega))).2
    rcases hend t ht _ hpc with heq | ⟨e, heq⟩
    · cases heq
    · cases heq

/-- **The seed** that is accepted is the tail of the abstract log. -/
theorem Sequential.seed (hS : Sequential u name w l n cur) (hc : w.clients[cid]? = some c)
    (hlast : cid + 1 = w.clients.length) (ht : c.threads[tid]? = some t) {retries seed : Nat}
    {curr : VersionedView} (hpc : t.pc = .opener (.propose (.propose retries curr seed)))
    (hok : Unwrapped u w (.run cid tid)) (ha : Accepts u w w' (curr.epoch + 1) seed)
    (hslots : positionSlot u w'.backend = positionSlot u w.backend) : seed = n := by
  have hmem := List.mem_of_getElem? hc
  have htmem := List.mem_of_getElem? ht
  have hmid := hS.midway
  rw [hS.proposing hmem htmem hpc] at hmid
  -- without an operation the positions are those of the abstract log
  have hshows : positionSlot u w.backend = l.slot := by
    apply hmid.slots_eq
    rintro q ⟨_, _, heq, -⟩
    cases heq
  have hroom := hok.room cid tid c t retries curr seed rfl hc ht hpc
  -- nothing from the seed on is in use
  have hfree : ∀ p, seed ≤ p → p ∉ l.used := by
    intro p hp hused
    apply SharedLog.mem_used.mp hused
    rw [← hshows, ← hslots]
    exact (hS.toInv.accepts_unwrapped ha hroom).free p hp
  -- and the position before it is
  have htop : ∀ x, seed = x + 1 → x ∈ l.used := by
    intro x hx
    rw [SharedLog.mem_used, ← hshows]
    exact hS.toInv.accepts_top (hmid.topsUsed hS.log hS.backed) hroom ha hx
  have htail : l.Tail seed := by
    cases hseed : seed with
    | zero =>
      left
      refine ⟨Set.eq_empty_of_forall_notMem fun p => ?_, rfl⟩
      exact hfree p (hseed ▸ Nat.zero_le p)
    | succ x =>
      refine Or.inr ⟨x, ⟨htop x hseed, fun q hq => ?_⟩, rfl⟩
      by_contra hlt
      exact hfree q (by omega) hq
  exact htail.unique (hS.tail cid c hc hlast (hS.no_seqs hc htmem hpc id))

/-! ## Steps beside the operation -/

theorem Request.Makes.raises {r : Request} {α : Type} {call : Call Fbs.View α} {p : Nat}
    (h : r.Makes call) (hr : call.raises? = some p) : r = .trimTo p := by
  cases call with
  -- only `trimTo` sets a limit
  | trim oid e q limit full =>
    cases limit with
    | true =>
      cases hr
      exact h
    | false => cases hr
  | _ => cases hr

/-- The objects after a step of a thread. -/
theorem Moves.objects {b' : Store} {sh : Shared} {pc : Pc} (hI : Inv u name w) (hc : c ∈ w.clients)
    (ht : t ∈ c.threads) (hmv : Moves name c t.pc w.backend sh pc b')
    (hb : BackedObjects u w.backend) (hl : LimitsUsed u w.backend exempt)
    (hraise : ∀ p opc, t.pc = .op (.trimTo p) opc → exempt p) :
    BackedObjects u b' ∧ LimitsUsed u b' exempt := by
  cases hmv with
  | access => exact ⟨hb, hl⟩
  | call call next hm =>
    have hcok := hI.clients c hc
    have hok := hcok.threads t ht
    have hcall := Pc.move_callOk hI.log hcok.shared hok hm
    refine ⟨hcall.backed hI.log hb, hcall.limitsUsed hI.log hl ?_⟩
    intro p hp
    -- the call belongs to no operation, or to one that makes such calls
    rcases Pc.move_makes hok _ _ _ hm with hman | ⟨r, opc, hpc, hmk⟩
    · cases call with
      | trim => exact hman.elim
      | _ => cases hp
    · rw [hmk.raises hp] at hpc
      exact hraise p opc hpc

/-- A step in which a client keeps its sequencer keeps the tail. -/
theorem Sequential.tail_step (hS : Sequential u name w l n cur) (hc : w.clients[cid]? = some c)
    (hset : w'.clients = w.clients.set cid c')
    (hseqs : c'.shared.seqs = [] → c.shared.seqs = []) (i : Nat) (d : Client)
    (hd : w'.clients[i]? = some d) (hi : i + 1 = w'.clients.length) (hnil : d.shared.seqs = []) :
    l.Tail n := by
  rw [hset, List.length_set] at hi
  rw [hset] at hd
  rcases getElem?_set_cases hc hd with ⟨-, hd⟩ | ⟨rfl, rfl⟩
  · exact hS.tail i d hd hi hnil
  · exact hS.tail i c hc hi (hseqs hnil)

/-- A thread that is in no operation changes no position and shows the same. -/
theorem Sequential.other (hS : Sequential u name w l n cur) (hc : w.clients[cid]? = some c)
    (ht : c.threads[tid]? = some t) (hset : w'.clients = w.clients.set cid c') {sh : Shared}
    (heq : c' = { c with shared := sh, threads := c.threads.set tid t' })
    (hpc : PcStep u w.backend c.shared t.pc w'.backend t'.pc)
    (hmv : Moves name c t.pc w.backend sh t'.pc w'.backend)
    (hno : ∀ r opc, t.pc ≠ .op r opc) :
    positionSlot u w'.backend = positionSlot u w.backend ∧ w'.trace = w.trace ∧
      SeqMove u w.backend c.shared n sh n ∧ ∀ r opc, t'.pc ≠ .op r opc := by
  have hmem := List.mem_of_getElem? hc
  have htmem := List.mem_of_getElem? ht
  -- no thread turns into an operation
  have hno' : ∀ r opc, t'.pc ≠ .op r opc := by
    intro r opc hpc'
    rw [hpc'] at hpc hmv
    obtain ⟨opc₀, hop, -⟩ := hpc.op hmv
    exact hno r opc₀ hop
  refine ⟨?_, ?_, ?_, hno'⟩
  · rcases hmv.slots hS.toInv (fun r opc hop => absurd hop (hno r opc)) hmem htmem hpc with
      hsame | ⟨data, p, hop, -⟩
    · exact funext hsame
    · exact absurd hop (hno' _ _)
  · -- the thread shows the same before and after the step
    have hshown : t'.pc.shown? = t.pc.shown? := by
      cases hold : t.pc with
      | opener opc =>
        rw [hold] at hpc
        obtain ⟨opc', heq', -⟩ := hpc
        rw [heq']
        rfl
      | op r opc => exact absurd hold (hno r opc)
      | refresh opc =>
        rw [hold] at hpc
        obtain ⟨opc', heq', -⟩ := hpc
        rw [heq']
        rfl
      | expander opc =>
        rw [hold] at hpc
        obtain ⟨opc', heq', -⟩ := hpc
        rw [heq']
        rfl
      | stripeInit opc =>
        rw [hold] at hpc
        obtain ⟨opc', heq', -⟩ := hpc
        rw [heq']
        rfl
    obtain ⟨before, after, hw, hw', -⟩ :=
      World.collect_split Pc.shown? hc ht hset (congrArg Client.threads heq)
    rw [World.trace, World.trace, hw, hw', hshown]
  · rcases hS.toCore.seqMove hc ht hmv n with hseqs | ⟨data, v, seq, hop, -⟩
    · exact hseqs
    · exact absurd hop (hno _ _)

/-- **A step beside the operation** keeps everything. -/
theorem Sequential.ran_beside (hS : Sequential u name w l n cur) (hnul : '\x00' ∉ name.toList)
    (hok : Unwrapped u w (.run cid tid)) (h : w.step (.run cid tid) = some w')
    (hc : w.clients[cid]? = some c)
    (ht : c.threads[tid]? = some t) (hset : w'.clients = w.clients.set cid c') {sh : Shared}
    (heq : c' = { c with shared := sh, threads := c.threads.set tid t' })
    (hpc : PcStep u w.backend c.shared t.pc w'.backend t'.pc)
    (hmv : Moves name c t.pc w.backend sh t'.pc w'.backend)
    (hno : ∀ r opc, t.pc ≠ .op r opc) : Sequential u name w' l n cur := by
  have hlt := lt_of_getElem?_eq_some hc
  obtain ⟨hslots, htrace, hseqs, hno'⟩ := hS.other hc ht hset heq hpc hmv hno
  obtain ⟨hbacked, hlimits⟩ := hmv.objects hS.toInv (List.mem_of_getElem? hc)
    (List.mem_of_getElem? ht) hS.backed hS.midway.limits fun p opc hop => absurd hop (hno _ _)
  -- a client that is over, or the last one
  have hsession : OneSession u name w' n := by
    by_cases hover : cid + 1 < w.clients.length
    · exact hS.over h hc hset hover rfl
    · have hlast : cid + 1 = w.clients.length := by omega
      refine hS.ran hnul h hc hset hlast ht heq hpc hmv hseqs ?_ ?_
      · exact fun data opc hop => absurd hop (hno' _ _)
      · -- the thread may be the one that proposes the next sequencer
        intro retries curr seed hop ha
        exact hS.seed hc hlast ht hop hok ha hslots
  refine ⟨hsession, ?_, ?_, hS.flight, hS.midway.beside hslots hlimits, hbacked,
    ?_⟩
  · rw [World.history_eq, htrace, ← World.history_eq]
    exact hS.run
  · rw [htrace]
    exact hS.trace
  · refine hS.tail_step hc hset fun hnil => ?_
    by_contra hne
    rw [heq] at hnil
    exact hseqs.nonempty hne hnil

/-! ## Steps of the operation -/

section

variable {r : Request} {opc opc' : OpPc} {sh : Shared}

/-- A thread in an operation that moves is the one under way, which comes last. -/
theorem Sequential.trace_op (hS : Sequential u name w l n cur) (hc : w.clients[cid]? = some c)
    (ht : c.threads[tid]? = some t) (hset : w'.clients = w.clients.set cid c')
    (heq : c' = { c with shared := sh, threads := c.threads.set tid t' })
    (hpc : t.pc = .op r opc) (hf : opc.InFlight) (hpc' : t'.pc = .op r opc') :
    cur = some (r, opc) ∧ ∃ past, w.trace = past ++ [.op r opc] ∧ w'.trace = past ++ [.op r opc'] ∧
      ∀ r opc, .op r opc ∈ past → ¬ opc.InFlight := by
  obtain ⟨before, after, hw, hw', -⟩ :=
    World.collect_split Pc.shown? hc ht hset (congrArg Client.threads heq)
  obtain ⟨past, htrace, hpast⟩ := hS.trace
  rw [hpc] at hw
  rw [hpc'] at hw'
  -- the past before the step, with and without the thread that moves
  have hsplit : past ++ (shownOf cur).toList = before ++ .op r opc :: after := by
    rw [← htrace, World.trace, hw]
    simp [Pc.shown?]
  obtain ⟨hcur, rfl, rfl⟩ := Lib.last_split hsplit fun hmem => hpast r opc hmem hf
  refine ⟨?_, before, ?_, ?_, hpast⟩
  · cases cur with
    | none => cases hcur
    | some x =>
      obtain ⟨r₁, opc₁⟩ := x
      cases hcur
      rfl
  · rw [World.trace, hw]
    simp [Pc.shown?]
  · rw [World.trace, hw']
    simp [Pc.shown?]

/-- What a step of an operation that goes on does to the counter. -/
theorem Sequential.counts (hS : Sequential u name w l n (some (r, opc)))
    (hok : Unwrapped u w (.run cid tid))
    (hc : w.clients[cid]? = some c) (hlast : cid + 1 = w.clients.length)
    (ht : c.threads[tid]? = some t) (hpc : t.pc = .op r opc) (hf : opc.InFlight)
    (hmv : Moves name c (.op r opc) w.backend sh (.op r opc') w'.backend) (hf' : opc'.InFlight) :
    ∃ n', SeqMove u w.backend c.shared n sh n' ∧
      (∀ data, r = .append data →
        Drawn (fun q => positionSlot u w.backend q ≠ .unwritten) l.counter n' opc'.position? ∧
          opc'.Holds sh) ∧
      ((∀ data, r ≠ .append data) → n' = n) := by
  have hmem := List.mem_of_getElem? hc
  have htmem := List.mem_of_getElem? ht
  have hsession := hS.last cid c hc hlast
  -- an append draws, keeps its position, or goes back to look for another one
  by_cases happ : ∃ data, r = .append data
  · obtain ⟨data, rfl⟩ := happ
    have hd := hS.midway.drawn data opc rfl
    rcases hsession.append_step hS.toCore hmem htmem hpc hf hmv with happend | hgives
    · obtain ⟨n', hseqs, hdrawn⟩ := happend.drawn (b := w.backend) hf' hsession.counter
        (fun v seq hsq hfound => hok.tail hc ht (hsq ▸ hpc) hfound) hd
      refine ⟨n', hseqs, fun _ _ => ⟨hdrawn, ?_⟩, fun hno => absurd rfl (hno data)⟩
      exact happend.holds (hsession.holds t htmem data opc hpc hf) hf'
    · refine ⟨n, .same (congrArg Shared.seqs hgives.shared), fun _ _ => ⟨hgives.drawn hd, ?_⟩,
        fun _ => rfl⟩
      intro p hp
      rw [hgives.seeks] at hp
      cases hp
  · -- no other operation draws
    refine ⟨n, ?_, fun data heq => absurd ⟨data, heq⟩ happ, fun _ => rfl⟩
    rcases hS.toCore.seqMove hc ht (hpc ▸ hmv) n with hseqs | ⟨data, v, seq, hop, -⟩
    · exact hseqs
    · rw [hpc] at hop
      cases hop
      exact absurd ⟨data, rfl⟩ happ

/-- A step of an operation that goes on only erases positions of a `trimTo`. -/
theorem OpStep.goes_on (hI : Inv u name w) (hc : c ∈ w.clients) (ht : t ∈ c.threads)
    (hk : Kept u name w.backend w'.backend) (hpc : t.pc = .op r opc)
    (hmv : Moves name c t.pc w.backend sh (.op r opc') w'.backend)
    (hop : OpStep u w.backend c.shared r w'.backend opc') (hf' : opc'.InFlight) (q : Nat) :
    positionSlot u w'.backend q = positionSlot u w.backend q ∨
      Trims (some (r, opc)) q ∧ positionSlot u w'.backend q = .invalid := by
  -- `trimTo` erases as it goes on, every other operation changes nothing before it returns
  by_cases htrim : ∃ p, r = .trimTo p
  · obtain ⟨p, rfl⟩ := htrim
    exact (hmv.erased hI hc ht hpc q).imp_right fun hq => ⟨⟨p, opc, rfl, hq.1⟩, hq.2⟩
  · have hsame := hop.still (fun p heq => htrim ⟨p, heq⟩) hf'
    exact Or.inl (hk.positionSlot_eq hI.log (hsame q).slot)

/-- The session after a step of the operation. -/
theorem Sequential.session_op (hS : Sequential u name w l n cur) (hnul : '\x00' ∉ name.toList)
    (h : w.step (.run cid tid) = some w') (hc : w.clients[cid]? = some c)
    (hlast : cid + 1 = w.clients.length) (ht : c.threads[tid]? = some t)
    (hset : w'.clients = w.clients.set cid c')
    (heq : c' = { c with shared := sh, threads := c.threads.set tid t' })
    (hstep : PcStep u w.backend c.shared t.pc w'.backend t'.pc)
    (hmv : Moves name c t.pc w.backend sh t'.pc w'.backend) (hpc : t.pc = .op r opc) {n' : Nat}
    (hseqs : SeqMove u w.backend c.shared n sh n')
    (hholds : ∀ data opc, t'.pc = .op (.append data) opc → opc.InFlight → opc.Holds sh) :
    OneSession u name w' n' := by
  refine hS.ran hnul h hc hset hlast ht heq hstep hmv hseqs hholds ?_
  intro retries curr seed hop
  rw [hpc] at hop
  cases hop

/-- The client of an operation has a sequencer, and keeps it. -/
theorem Sequential.tail_op (hS : Sequential u name w l n cur) {l' : SharedLog}
    (hc : w.clients[cid]? = some c) (hlast : cid + 1 = w.clients.length)
    (ht : c.threads[tid]? = some t) (hset : w'.clients = w.clients.set cid c')
    (heq : c' = { c with shared := sh, threads := c.threads.set tid t' })
    (hpc : t.pc = .op r opc) (hf : opc.InFlight) {n' : Nat}
    (hseqs : SeqMove u w.backend c.shared n sh n') (i : Nat) (d : Client)
    (hd : w'.clients[i]? = some d) (hi : i + 1 = w'.clients.length) (hnil : d.shared.seqs = []) :
    l'.Tail n' := by
  rw [hset, List.length_set, ← hlast] at hi
  obtain rfl : i = cid := Nat.succ.inj hi
  rw [hset, List.getElem?_set_self (lt_of_getElem?_eq_some hc)] at hd
  cases hd
  -- its client has a sequencer while an operation runs
  rw [heq] at hnil
  have hrunning : t.Running := ⟨r, opc, hpc, hf⟩
  have hne := (hS.last i c hc hlast).running hS.toCore (List.mem_of_getElem? hc)
    (List.mem_of_getElem? ht) hrunning
  exact absurd hnil (hseqs.nonempty hne)

/-- **The operation goes on.** -/
theorem Sequential.ran_on (hS : Sequential u name w l n cur) (hnul : '\x00' ∉ name.toList)
    (hok : Unwrapped u w (.run cid tid)) (h : w.step (.run cid tid) = some w')
    (hc : w.clients[cid]? = some c)
    (ht : c.threads[tid]? = some t) (hset : w'.clients = w.clients.set cid c')
    (heq : c' = { c with shared := sh, threads := c.threads.set tid t' })
    (hstep : PcStep u w.backend c.shared t.pc w'.backend t'.pc)
    (hmv : Moves name c t.pc w.backend sh t'.pc w'.backend) (hpc : t.pc = .op r opc)
    (hf : opc.InFlight) (hpc' : t'.pc = .op r opc') (hf' : opc'.InFlight) :
    ∃ n', Sequential u name w' l n' (some (r, opc')) := by
  have hmem := List.mem_of_getElem? hc
  have htmem := List.mem_of_getElem? ht
  have hrunning : t.Running := ⟨r, opc, hpc, hf⟩
  have hlast := hS.running_last hc htmem hrunning
  obtain ⟨rfl, past, hold, hnew, hpast⟩ := hS.trace_op hc ht hset heq hpc hf hpc'
  -- what the step of the thread says of the operation
  have hop : OpStep u w.backend c.shared r w'.backend opc' := by
    rw [hpc'] at hstep hmv
    obtain ⟨-, -, -, hop⟩ := hstep.op hmv
    exact hop
  obtain ⟨n', hseqs, happend, hrest⟩ := hS.counts hok hc hlast ht hpc hf (hpc' ▸ hpc ▸ hmv) hf'
  obtain ⟨hbacked, hlimits⟩ := hmv.objects hS.toInv hmem htmem hS.backed hS.midway.limits
    fun p opc₁ hop => by
      rw [hpc] at hop
      cases hop
      exact ⟨p, opc, rfl, le_refl p⟩
  have hsession : OneSession u name w' n' := by
    refine hS.session_op hnul h hc hlast ht hset heq hstep hmv hpc hseqs ?_
    intro data opc₁ heq₁ _
    rw [hpc'] at heq₁
    cases heq₁
    exact (happend data rfl).2
  -- the history is as before, as this operation is not in it
  refine ⟨n', hsession, ?_, ⟨past, hnew, hpast⟩, ?_, ?_, hbacked, ?_⟩
  · rw [World.history_past hnew hf', ← World.history_past hold hf]
    exact hS.run
  · intro r₁ opc₁ heq₁
    cases heq₁
    exact hf'
  · refine hS.midway.running ?_ hlimits (fun data heq => (happend data heq).1) hrest
    exact hop.goes_on hS.toInv hmem htmem (hS.toInv.step h).2 hpc (hpc' ▸ hmv) hf'
  · exact hS.tail_op hc hlast ht hset heq hpc hf hseqs

/-- What an operation that returns does to the counter, and what it returns. -/
theorem Sequential.finishes (hS : Sequential u name w l n (some (r, opc)))
    (hok : Unwrapped u w (.run cid tid))
    (h : w.step (.run cid tid) = some w') (hc : w.clients[cid]? = some c)
    (hlast : cid + 1 = w.clients.length) (ht : c.threads[tid]? = some t)
    (ht' : w'.thread? cid tid = some t') (hpc : t.pc = .op r opc) (hf : opc.InFlight)
    {result : Ret Reply} {done : Nat} (hpc' : t'.pc = .op r (.done result))
    (hmv : Moves name c (.op r opc) w.backend sh (.op r (.done result)) w'.backend)
    (hr : ReturnStep u name w w' (.run cid tid) ⟨cid, tid, r, result, t'.invokedAt, done⟩) :
    SeqMove u w.backend c.shared n sh n ∧
      (∀ data p, r = .append data → result = .ok (.position p) → opc.position? = some p) ∧
      (∀ p, r = .checkTail → result = .ok (.position p) → p = n) ∧
      (r.Sequenced → result ≠ .error .eio) := by
  have hmem := List.mem_of_getElem? hc
  have htmem := List.mem_of_getElem? ht
  have hsession := hS.last cid c hc hlast
  have hrunning : t.Running := ⟨r, opc, hpc, hf⟩
  -- in the session the sequencer is never missing
  have hio : r.Sequenced → result ≠ .error .eio := by
    rintro hreq rfl
    exact hsession.no_eio hS.toCore h hc htmem hrunning hreq ht' hpc'
  have htail : ∀ p, r = .checkTail → result = .ok (.position p) → p = n := by
    rintro p rfl rfl
    obtain ⟨c₁, t₁, v, seq, hread⟩ := hS.checkTail h ht' hpc'
    have hres := hread.returned
    rw [hok.tail hread.client hread.thread hread.reading hread.found, hread.counter] at hres
    cases hres
    rfl
  -- an append returns the position that it held
  by_cases happ : ∃ data, r = .append data
  · obtain ⟨data, rfl⟩ := happ
    obtain ⟨p, rfl⟩ : ∃ p, result = .ok (.position p) := by
      rcases hr.answer with heio | ⟨p, hres, -⟩
      · exact absurd heio (hio trivial)
      · exact ⟨p, hres⟩
    rcases hsession.append_step hS.toCore hmem htmem hpc hf hmv with happend | hgives
    · obtain ⟨rfl, hp⟩ := happend.done
      refine ⟨.same rfl, ?_, htail, hio⟩
      intro data' p' _ heq
      cases heq
      exact hp
    · exact absurd rfl (hgives.inFlight _)
  · refine ⟨?_, fun data p heq => absurd ⟨data, heq⟩ happ, htail, hio⟩
    rcases hS.toCore.seqMove hc ht (hpc ▸ hmv) n with hseqs | ⟨data, v, seq, hop, -⟩
    · exact hseqs
    · rw [hpc] at hop
      cases hop
      exact absurd ⟨data, rfl⟩ happ

/-- **The operation returns** and does its step of the abstract log. -/
theorem Sequential.ran_done (hS : Sequential u name w l n cur) (hnul : '\x00' ∉ name.toList)
    (hok : Unwrapped u w (.run cid tid)) (h : w.step (.run cid tid) = some w')
    (hc : w.clients[cid]? = some c)
    (ht : c.threads[tid]? = some t) (ht' : w'.thread? cid tid = some t')
    (hset : w'.clients = w.clients.set cid c')
    (heq : c' = { c with shared := sh, threads := c.threads.set tid t' })
    (hstep : PcStep u w.backend c.shared t.pc w'.backend t'.pc)
    (hmv : Moves name c t.pc w.backend sh t'.pc w'.backend) (hpc : t.pc = .op r opc)
    (hf : opc.InFlight) {result : Ret Reply} (hpc' : t'.pc = .op r (.done result)) :
    ∃ l', Sequential u name w' l' n none := by
  have hmem := List.mem_of_getElem? hc
  have htmem := List.mem_of_getElem? ht
  have hrunning : t.Running := ⟨r, opc, hpc, hf⟩
  have hlast := hS.running_last hc htmem hrunning
  obtain ⟨rfl, past, hold, hnew, hpast⟩ := hS.trace_op hc ht hset heq hpc hf hpc'
  obtain ⟨done, hdone, -, -⟩ :=
    ((hS.toGood.step h).timed cid tid t' ht').done result (by rw [hpc']; rfl)
  -- this return is the one of this step
  have hr : ReturnStep u name w w' (.run cid tid)
      ⟨cid, tid, r, result, t'.invokedAt, done⟩ := by
    refine (hS.toGood.return_step h ⟨t', ht', hpc', rfl, hdone⟩).resolve_left ?_
    rintro ⟨t₁, ht₁, hpc₁, -⟩
    rw [World.thread?_of_client hc, ht] at ht₁
    cases ht₁
    rw [hpc] at hpc₁
    cases hpc₁
    exact hf result rfl
  obtain ⟨hseqs, happend, htail, hio⟩ :=
    hS.finishes hok h hc hlast ht ht' hpc hf hpc' (hpc' ▸ hpc ▸ hmv) hr
  obtain ⟨hbacked, hlimits⟩ := hmv.objects hS.toInv hmem htmem hS.backed hS.midway.limits
    fun p opc₁ hop => by
      rw [hpc] at hop
      cases hop
      exact ⟨p, opc, rfl, le_refl p⟩
  -- the return is a step of the abstract log
  obtain ⟨l', hl, hmid⟩ := hS.midway.returns (hr.takes hS.toGood h) hlimits happend htail hio
  have hsession : OneSession u name w' n := by
    refine hS.session_op hnul h hc hlast ht hset heq hstep hmv hpc hseqs ?_
    intro data opc₁ heq₁ hf₁
    rw [hpc'] at heq₁
    cases heq₁
    exact absurd rfl (hf₁ result)
  refine ⟨l', hsession, ?_, ⟨past ++ [.op r (.done result)], ?_, ?_⟩, ?_, hmid, hbacked,
    hS.tail_op hc hlast ht hset heq hpc hf hseqs⟩
  · rw [World.history_eq, hnew, List.filterMap_append, ← World.history_past hold hf]
    exact hS.run.snoc (.returned hl)
  · rw [hnew]
    exact (List.append_nil _).symm
  · -- the operation that returned has joined the past
    intro r₁ opc₁ hmem₁
    rcases List.mem_append.mp hmem₁ with hmem₁ | hmem₁
    · exact hpast r₁ opc₁ hmem₁
    · cases List.mem_singleton.mp hmem₁
      exact fun hf₁ => hf₁ result rfl
  · exact fun _ _ heq₁ => by cases heq₁

end

/-! ## Runs -/

/-- A thread of a client takes a step. -/
theorem Sequential.ran_step (hS : Sequential u name w l n cur) (hnul : '\x00' ∉ name.toList)
    (hok : Unwrapped u w (.run cid tid)) (h : w.step (.run cid tid) = some w')
    (hc : w.clients[cid]? = some c)
    (ht : c.threads[tid]? = some t) (ht' : w'.thread? cid tid = some t')
    (hset : w'.clients = w.clients.set cid c') {sh : Shared}
    (heq : c' = { c with shared := sh, threads := c.threads.set tid t' })
    (hstep : PcStep u w.backend c.shared t.pc w'.backend t'.pc)
    (hmv : Moves name c t.pc w.backend sh t'.pc w'.backend) :
    ∃ l' n' cur', Sequential u name w' l' n' cur' := by
  -- an operation that returns, one that goes on, or another thread
  by_cases hop : ∃ r opc, t.pc = .op r opc
  · obtain ⟨r, opc, hpc⟩ := hop
    have hf : opc.InFlight := by
      rintro result rfl
      rw [hpc] at hmv
      exact hmv.ne_none Pc.move_done
    obtain ⟨opc', hpc'⟩ : ∃ opc', t'.pc = .op r opc' := by
      rw [hpc] at hstep
      obtain ⟨opc', heq', -⟩ := hstep
      exact ⟨opc', heq'⟩
    by_cases hdone : ∃ result, opc' = .done result
    · obtain ⟨result, rfl⟩ := hdone
      obtain ⟨l', hS'⟩ := hS.ran_done hnul hok h hc ht ht' hset heq hstep hmv hpc hf hpc'
      exact ⟨l', n, none, hS'⟩
    · have hf' : opc'.InFlight := fun result heq' => hdone ⟨result, heq'⟩
      obtain ⟨n', hS'⟩ := hS.ran_on hnul hok h hc ht hset heq hstep hmv hpc hf hpc' hf'
      exact ⟨l, n', _, hS'⟩
  · exact ⟨l, n, cur, hS.ran_beside hnul hok h hc ht hset heq hstep hmv
      fun r opc hpc => hop ⟨r, opc, hpc⟩⟩

/-- The next client opens the log: its counter will start at the tail. -/
theorem Sequential.opens (hS : Sequential u name w l n cur) {options : Options} {host : Host}
    (h : w.step (.open options host) = some w') (hover : ∀ c ∈ w.clients, c.ended = true)
    (hclients : w'.clients = w.clients ++ [Client.new options host w.clock])
    (hb : w'.backend = w.backend) : ∃ l' m, Sequential u name w' l' m none := by
  -- all clients are over, so nothing is under way
  obtain rfl : cur = none := by
    apply hS.at_rest
    intro c hc
    exact (Client.ended_spec (hS.life c hc) (hover c hc)).1
  obtain ⟨m, hm⟩ := SharedLog.exists_tail hS.run.bddAbove
  obtain ⟨past, htrace, hpast⟩ := hS.trace
  have htrace : w.trace = past := htrace.trans (List.append_nil past)
  -- the new client shows its opening thread
  have hnew : w'.trace = past ++ [.opener .openLog] := by
    rw [← htrace]
    unfold World.trace World.collect
    rw [hclients, List.flatMap_append, List.flatMap_singleton, Client.collect_new ofThreads_shown]
    rfl
  refine ⟨{ l with counter := m }, m, .of_open (hS.toCore.step h) hover hclients m, ?_,
    ⟨_, hnew.trans (List.append_nil _).symm, ?_⟩, by rintro _ _ ⟨⟩, ?_, hb ▸ hS.backed,
    fun _ _ _ _ _ => hm⟩
  · have hhistory : w'.history = w.history ++ [.opened] := by
      rw [World.history_eq, World.history_eq, hnew, htrace, List.filterMap_append]
      rfl
    rw [hhistory]
    exact hS.run.snoc (.opened hm)
  · intro r opc hmem
    rcases List.mem_append.mp hmem with hmem | hmem
    · exact hpast r opc hmem
    · cases List.mem_singleton.mp hmem
  · rw [hb]
    exact ⟨hS.midway.slots, hS.midway.limits, by rintro _ _ ⟨⟩, fun _ => rfl⟩

/-- An operation starts. -/
theorem Sequential.invoked (hS : Sequential u name w l n cur) {r : Request}
    (h : w.step (.invoke cid r) = some w') (hidle : ∀ c ∈ w.clients, c.busy = false)
    (hc : w.clients[cid]? = some c) (hset : w'.clients = w.clients.set cid c')
    (hb : w'.backend = w.backend) (hr : c.Rests c') (hopen : c.isOpen = true)
    (hshown : c'.collect Pc.shown? = c.collect Pc.shown? ++ [.op r r.enter]) :
    Sequential u name w' l n (some (r, r.enter)) := by
  -- no operation was under way before
  obtain rfl : cur = none :=
    hS.at_rest fun c hc t ht => Client.not_busy (hidle c hc) ht
  have hlast := hS.open_last hc hopen
  have hf : r.enter.InFlight := by
    intro result heq
    cases r <;> cases heq
  obtain ⟨past, htrace, hpast⟩ := hS.trace
  have htrace : w.trace = past := htrace.trans (List.append_nil past)
  have hnew : w'.trace = past ++ [.op r r.enter] := by
    rw [← htrace]
    exact World.collect_last hc hset hlast hshown
  refine ⟨hS.rests h hc hset hb hr, ?_, ⟨past, hnew, hpast⟩, ?_, ?_, hb ▸ hS.backed,
    ?_⟩
  · rw [World.history_past hnew hf, ← htrace, ← World.history_eq]
    exact hS.run
  · intro r₁ opc₁ heq
    cases heq
    exact hf
  · have hrest : n = l.counter := hS.midway.rest (by rintro _ _ ⟨⟩)
    rw [hb]
    -- nothing has been trimmed by the new operation yet
    refine ⟨?_, ?_, ?_, fun _ => hrest⟩
    · intro q
      refine Or.inl ((hS.midway.slots q).resolve_right ?_)
      rintro ⟨⟨p, opc, heq, -⟩, -⟩
      cases heq
    · intro s i o x ho hx
      refine (hS.midway.limits s i o x ho hx).imp_right ?_
      rintro ⟨p, opc, heq, -⟩
      cases heq
    · intro data opc heq
      cases heq
      rw [hrest]
      exact .start _ _
  · exact hS.tail_step hc hset fun hnil => hr.seqs ▸ hnil

/-- **Step lemma.** -/
theorem Sequential.step (hS : Sequential u name w l n cur) (hnul : '\x00' ∉ name.toList)
    (hok : OneAtATime w a) (hlow : Unwrapped u w a) (h : w.step a = some w') :
    ∃ l' n' cur', Sequential u name w' l' n' cur' := by
  rcases hS.toInv.collect_step h with ⟨options, host, rfl, hclients, hb⟩ | ⟨cid, c, c', hc, hset, hs⟩
  · obtain ⟨l', m, hS'⟩ := hS.opens h hok hclients hb
    exact ⟨l', m, none, hS'⟩
  · cases hs with
    -- a step of the environment, or of a thread
    | quiet hb hr hshows =>
      cases hshows with
      | same hsame =>
        have htrace : w'.trace = w.trace :=
          World.collect_same hc hset (hsame Pc Pc.shown? ofThreads_shown)
        refine ⟨l, n, cur, hS.rests h hc hset hb hr, ?_, htrace ▸ hS.trace, hS.flight,
          hb ▸ hS.midway, hb ▸ hS.backed,
          hS.tail_step hc hset fun hnil => hr.seqs ▸ hnil⟩
        rw [World.history_eq, htrace, ← World.history_eq]
        exact hS.run
      | invoked r ha hopen hnew =>
        subst ha
        exact ⟨l, n, _, hS.invoked h hok hc hset hb hr hopen (hnew Pc Pc.shown?)⟩
    | ran tid t t' sh ht ha heq ht' hpc hmv =>
      subst ha
      exact hS.ran_step hnul hlow h hc ht ht' hset heq hpc hmv

theorem Sequential.init {options : Options} {host : Host}
    (h : World.init name u options host = some w) :
    Sequential u name w .empty 0 none := by
  have htrace : w.trace = [.opener .openLog] := by
    obtain ⟨blob, b, -, -, rfl⟩ := World.init_eq h
    rfl
  -- an empty log has its tail at 0
  have hempty : SharedLog.empty.Tail 0 := by
    refine Or.inl ⟨Set.eq_empty_of_forall_notMem fun p => ?_, rfl⟩
    rintro (hlt | hne)
    · exact absurd hlt (Nat.not_lt_zero p)
    · exact absurd rfl hne
  have hnone : ∀ s i o, ¬ objectAt u w.backend s i = some o := by
    intro s i o ho
    rw [objectAt, logAt_init h] at ho
    cases ho
  refine ⟨.init h, ?_, ⟨[.opener .openLog], htrace, ?_⟩, by rintro _ _ ⟨⟩, ?_, ?_,
    fun _ _ _ _ _ => hempty⟩
  · rw [World.history_eq, htrace]
    exact Lib.Legal.nil.snoc (.opened hempty)
  · intro r opc hmem
    cases List.mem_singleton.mp hmem
  · refine ⟨?_, ?_, by rintro _ _ ⟨⟩, fun _ => rfl⟩
    · intro q
      rw [positionSlot_init h q]
      exact Or.inl rfl
    · exact fun s i o x ho => absurd ho (hnone s i o)
  · exact fun s i o ho => absurd ho (hnone s i o)

/-- **Sequential refinement**: while operations are issued one at a time, below the wrap, the history
    is one of the abstract log; and when none is under way, the positions are those of the abstract
    log. -/
theorem sequential_refinement {options : Options} {host : Host}
    (h₀ : World.init name u options host = some w₀) (hnul : '\x00' ∉ name.toList)
    (h : Lib.Run World.step (fun w a => OneAtATime w a ∧ Unwrapped u w a) w₀ w) :
    ∃ l, SharedLog.Run SharedLog.Tail w.history l ∧
      ((∀ c ∈ w.clients, c.busy = false) → positionSlot u w.backend = l.slot) := by
  -- the induction is over the run
  have hS : ∃ l n cur, Sequential u name w l n cur := by
    refine h.invariant (I := fun w => ∃ l n cur, Sequential u name w l n cur) ?_
      ⟨_, _, _, .init h₀⟩
    rintro v a v' ⟨l, n, cur, hS⟩ ⟨hok, hlow⟩ hs
    exact hS.step hnul hok hlow hs
  obtain ⟨l, n, cur, hS⟩ := hS
  refine ⟨l, hS.run, fun hidle => ?_⟩
  have hmid := hS.midway
  rw [hS.at_rest fun c hc t ht => Client.not_busy (hidle c hc) ht] at hmid
  apply hmid.slots_eq
  rintro q ⟨_, _, heq, -⟩
  cases heq

/-- **Answers**: the requests determine the answers, whatever the layout of the log, the hosts and
    the interleaving of the threads. -/
theorem sequential_answers {u' : Uuid} {name' : String} {options options' : Options}
    {host host' : Host} {v v₀ : World}
    (h₀ : World.init name u options host = some w₀) (hnul : '\x00' ∉ name.toList)
    (h : Lib.Run World.step (fun w a => OneAtATime w a ∧ Unwrapped u w a) w₀ w)
    (h₀' : World.init name' u' options' host' = some v₀) (hnul' : '\x00' ∉ name'.toList)
    (h' : Lib.Run World.step (fun w a => OneAtATime w a ∧ Unwrapped u' w a) v₀ v)
    (hreq : w.history.map SharedLog.Event.request? = v.history.map SharedLog.Event.request?) :
    w.history = v.history := by
  obtain ⟨l, hl, -⟩ := sequential_refinement h₀ hnul h
  obtain ⟨l', hl', -⟩ := sequential_refinement h₀' hnul' h'
  exact (SharedLog.Run.determined hl hl' hreq).1

end

namespace Sample

/-- The first client appends, fills the next position and closes the log. -/
def filled : List Action :=
  appended ++ .invoke 0 (.fill 1) :: steps 0 5 4 ++ steps 0 1 5 ++ steps 0 5 9 ++
    .close 0 :: steps 0 0 2 ++ steps 0 1 1 ++ steps 0 2 1 ++ steps 0 3 1 ++ steps 0 0 1

/-- The next one asks for the tail. -/
def tailAfterFill : List Action :=
  filled ++ .open options host :: steps 1 0 11 ++ steps 1 1 5 ++ steps 1 0 1 ++
    .invoke 1 .checkTail :: steps 1 4 2

/-- Four positions for each object. -/
def longStripes : Options := { stripeWidth := 1, stripeSlots := 4 }

/-- The same requests; the fill finds its position mapped. -/
def tailAfterMappedFill : List Action :=
  appended ++ .invoke 0 (.fill 1) :: steps 0 5 3 ++
    .close 0 :: steps 0 0 2 ++ steps 0 1 1 ++ steps 0 2 1 ++ steps 0 3 1 ++ steps 0 0 1 ++
    .open longStripes host :: steps 1 0 11 ++ steps 1 1 5 ++ steps 1 0 1 ++
    .invoke 1 .checkTail :: steps 1 4 2

/-- One operation at a time, below the wrap. -/
def Slow (w : World) (a : Action) : Prop := OneAtATime w a ∧ Low w

instance (w : World) (a : Action) : Decidable (Slow w a) :=
  inferInstanceAs (Decidable (OneAtATime w a ∧ Low w))

theorem Slow.unwrapped {w : World} {a : Action} (h : Slow w a) :
    OneAtATime w a ∧ Unwrapped uuid w a :=
  ⟨h.1, h.2.unwrapped a⟩

end Sample

set_option maxRecDepth 100000 in
/-- The tail of a log that is opened again is behind the position that was filled. -/
theorem sequential_refinement_sample :
    ∃ w l, Sample.worldIf Sample.Slow Sample.tailAfterFill = some w ∧
      w.history = [.opened, .returned (.append "a") (.ok (.position 0)),
        .returned (.fill 1) (.ok .unit), .opened, .returned .checkTail (.ok (.position 2))] ∧
      SharedLog.Run SharedLog.Tail w.history l := by
  have hrun : (Sample.worldIf Sample.Slow Sample.tailAfterFill).map World.history =
      some [.opened, .returned (.append "a") (.ok (.position 0)),
        .returned (.fill 1) (.ok .unit), .opened, .returned .checkTail (.ok (.position 2))] := by
    decide +kernel
  obtain ⟨w, hw, hhistory⟩ := Option.map_eq_some_iff.mp hrun
  obtain ⟨w₀, h₀, h⟩ := Sample.runs hw
  obtain ⟨l, hl, -⟩ := sequential_refinement h₀ (by decide) (h.mono fun _ _ => Sample.Slow.unwrapped)
  exact ⟨w, l, hw, hhistory, hl⟩

set_option maxRecDepth 100000 in
/-- With longer stripes the same requests return the same. -/
theorem sequential_answers_sample :
    ∃ w v, Sample.worldIf Sample.Slow Sample.tailAfterFill = some w ∧
      (World.init "log" Sample.uuid Sample.longStripes Sample.host).bind (fun v₀ =>
        Lib.exec (fun w a => if Sample.Slow w a then w.step a else none) v₀
          Sample.tailAfterMappedFill) = some v ∧
      v.history.map SharedLog.Event.request? =
        [none, some (.append "a"), some (.fill 1), none, some .checkTail] ∧
      w.history = v.history := by
  have hrun : (Sample.worldIf Sample.Slow Sample.tailAfterFill).map
      (fun w => w.history.map SharedLog.Event.request?) =
      some [none, some (.append "a"), some (.fill 1), none, some .checkTail] := by decide +kernel
  have hrun' : ((World.init "log" Sample.uuid Sample.longStripes Sample.host).bind fun v₀ =>
      Lib.exec (fun w a => if Sample.Slow w a then w.step a else none) v₀
        Sample.tailAfterMappedFill).map (fun v => v.history.map SharedLog.Event.request?) =
      some [none, some (.append "a"), some (.fill 1), none, some .checkTail] := by decide +kernel
  obtain ⟨w, hw, hreq⟩ := Option.map_eq_some_iff.mp hrun
  obtain ⟨v, hv, hreq'⟩ := Option.map_eq_some_iff.mp hrun'
  obtain ⟨w₀, h₀, h⟩ := Sample.runs hw
  obtain ⟨v₀, h₀', hexec⟩ := Option.bind_eq_some_iff.mp hv
  have h' := Lib.run_of_exec_guard _ hexec
  exact ⟨w, v, hw, hv, hreq',
    sequential_answers h₀ (by decide) (h.mono fun _ _ => Sample.Slow.unwrapped) h₀' (by decide)
      (h'.mono fun _ _ => Sample.Slow.unwrapped) (hreq.trans hreq'.symm)⟩

end ZLog
