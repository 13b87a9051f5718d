import ZLog.System.Sessions

/-!
# Gapless appends

The sessions of one client, step by step.  A step of the client that opened the log last changes the
tickets as its thread says; the clients before it have ended, so that their steps change none.

## Main results

- `Sessions.step`: what a step of the only client keeps.
- `appends_gapless`: the positions returned are the first ones, and `CheckTail` returns their number.
-/

namespace ZLog

/-- The position that an append has returned. -/
def Pc.appended? : Pc → Option Nat
  | .op (.append _) (.done (.ok (.position p))) => some p
  | _ => none

/-- The position that an append in flight holds. -/
def Pc.held? : Pc → Option Nat
  | .op (.append _) (.done _) => none
  | .op (.append _) pc => pc.position?
  | _ => none

/-- An append is in flight. -/
def Pc.appending : Pc → Bool
  | .op (.append _) (.done _) => false
  | .op (.append _) _ => true
  | _ => false

/-- The operation is an append. -/
def Pc.append? : Pc → Option String
  | .op (.append data) _ => some data
  | _ => none

/-- The number of appends that have been invoked, over all sessions. -/
def World.appends (w : World) : Nat := (w.collect Pc.append?).length

/-- The positions that appends have returned, over all sessions. -/
def World.appended (w : World) : List Nat := w.collect Pc.appended?

/-- The positions that appends in flight hold. -/
def World.held (w : World) : List Nat := w.collect Pc.held?

/-- Some append is in progress. -/
def World.appending (w : World) : Bool :=
  w.clients.any fun c => c.threads.any fun t => t.pc.appending

/-- One client at a time, without fills and trims. -/
def OneClient (w : World) : Action → Prop
  | .open .. => ∀ c ∈ w.clients, c.ended = true
  | .invoke _ r => r.gentle = true
  | _ => True

instance decidableOneClient (w : World) : (a : Action) → Decidable (OneClient w a)
  | .open .. => inferInstanceAs (Decidable (∀ c ∈ w.clients, c.ended = true))
  | .invoke _ r => inferInstanceAs (Decidable (r.gentle = true))
  | .close _ => isTrue trivial
  | .run .. => isTrue trivial

section

variable {u : Uuid} {name : String} {w w' w₀ : World} {a : Action} {c c' : Client} {cid n n' : Nat}

/-! ## Collecting positions -/

theorem ofOps_appended : OfOps Pc.appended? where
  opener _ _ := rfl
  other := by
    intro pc _ h
    cases pc with
    | op r opc => exact absurd rfl (h r opc)
    | _ => rfl
  enter := by
    intro r
    cases r <;> rfl

theorem ofOps_held : OfOps Pc.held? where
  opener _ _ := rfl
  other := by
    intro pc _ h
    cases pc with
    | op r opc => exact absurd rfl (h r opc)
    | _ => rfl
  enter := by
    intro r
    cases r <;> rfl

/-- What is collected in a step, up to the order. -/
theorem World.collect_perm (f : Pc → Option Nat) (hc : w.clients[cid]? = some c) {tid : Nat}
    {t t' : Thread} {sh : Shared} (ht : c.threads[tid]? = some t)
    (hset : w'.clients = w.clients.set cid c')
    (heq : c' = { c with shared := sh, threads := c.threads.set tid t' }) :
    ∃ rest, (w.collect f).Perm ((f t.pc).toList ++ rest) ∧
      (w'.collect f).Perm ((f t'.pc).toList ++ rest) := by
  obtain ⟨before, after, hold, hnew, -⟩ :=
    World.collect_split f hc ht hset (congrArg Client.threads heq)
  refine ⟨before ++ after, ?_, ?_⟩
  · rw [hold, List.append_assoc]
    exact List.perm_append_comm_assoc _ _ _
  · rw [hnew, List.append_assoc]
    exact List.perm_append_comm_assoc _ _ _

theorem ofThreads_append : OfThreads Pc.append? where
  opener _ _ := rfl
  other := by
    intro pc _ h
    cases pc with
    | op r opc => exact absurd rfl (h r opc)
    | _ => rfl

/-- Appends stay. -/
theorem Inv.appends_le (hI : Inv u name w) (h : w.step a = some w') : w.appends ≤ w'.appends := by
  rcases hI.collect_step h with ⟨options, host, rfl, hclients, -⟩ | ⟨cid, c, c', hc, hset, hs⟩
  · unfold World.appends World.collect
    rw [hclients, List.flatMap_append, List.length_append]
    exact Nat.le_add_right _ _
  · -- a step of the environment adds at most one thread
    cases hs with
    | quiet hb hr hshows =>
      obtain ⟨before, after, hclients, hcset, -⟩ := Lib.set_split hc
      have hle : (c.collect Pc.append?).length ≤ (c'.collect Pc.append?).length := by
        cases hshows with
        | same hsame => exact le_of_eq (congrArg List.length (hsame _ _ ofThreads_append).symm)
        | invoked r ha hopen hnew =>
          rw [hnew, List.length_append]
          exact Nat.le_add_right _ _
      unfold World.appends World.collect
      rw [hset, hcset, hclients]
      simp only [List.flatMap_append, List.flatMap_cons, List.length_append]
      omega
    | ran tid t t' sh ht ha heq ht' hpc hmv =>
      obtain ⟨before, after, hold, hnew, -⟩ :=
        World.collect_split Pc.append? hc ht hset (congrArg Client.threads heq)
      have hle : (Pc.append? t.pc).toList.length ≤ (Pc.append? t'.pc).toList.length := by
        -- an append stays an append
        cases hop : t.pc with
        | op r opc =>
          rw [hop] at hpc
          obtain ⟨opc', heq', -⟩ := hpc
          rw [heq']
          cases r <;> exact le_refl _
        | _ => exact Nat.zero_le _
      unfold World.appends
      rw [hold, hnew]
      simp only [List.length_append]
      omega

/-- What is collected, thread by thread. -/
theorem World.collect_eq {α : Type} (f : Pc → Option α) (w : World) :
    w.collect f = (w.clients.flatMap Client.threads).filterMap fun t => f t.pc :=
  (List.filterMap_flatMap ..).symm

theorem length_filterMap_cons {α β : Type} (f : α → Option β) (x : α) (l : List α) :
    ((x :: l).filterMap f).length = (f x).toList.length + (l.filterMap f).length := by
  cases hx : f x with
  | none => simp [hx]
  | some y => simp [hx, Nat.add_comm]

/-- An append has returned at most one position, or holds it. -/
theorem World.drawn_le_appends (w : World) : w.appended.length + w.held.length ≤ w.appends := by
  unfold World.appended World.held World.appends
  simp only [World.collect_eq]
  -- by the list of all threads
  induction w.clients.flatMap Client.threads with
  | nil => exact le_refl _
  | cons t ts ih =>
    have hone : (Pc.appended? t.pc).toList.length + (Pc.held? t.pc).toList.length ≤
        (Pc.append? t.pc).toList.length := by
      cases t.pc with
      | op r opc =>
        -- one thread counts at most once
        cases r with
        | append data =>
          cases opc with
          | done result =>
            show _ + 0 ≤ 1
            exact Option.length_toList_le
          | _ => exact Nat.add_le_add (le_refl 0) Option.length_toList_le
        | _ => exact le_refl _
      | _ => exact le_refl _
    simp only [length_filterMap_cons]
    omega

/-! ## The session -/

/-- The sessions of the client so far: `n` positions were handed out. -/
structure Sessions (u : Uuid) (name : String) (w : World) (n : Nat) : Prop
    extends OneSession u name w n where
  topped : Topped u w
  tickets : Lib.Tickets w.held w.appended n
  written : ∀ p, positionSlot u w.backend p ≠ .unwritten ↔ p ∈ w.appended

theorem OneClient.gentle (h : OneClient w a) : a.Gentle := by
  cases a with
  | invoke cid r => exact h
  | _ => trivial

theorem Pc.held?_append {data : String} {pc : OpPc} (h : pc.InFlight) :
    (Pc.op (.append data) pc).held? = pc.position? := by
  cases pc with
  | done result => exact absurd rfl (h result)
  | _ => rfl

theorem Pc.appended?_append {data : String} {pc : OpPc} (h : pc.InFlight) :
    (Pc.op (.append data) pc).appended? = none := by
  cases pc with
  | done result => exact absurd rfl (h result)
  | _ => rfl

/-- What a step of a thread means for the positions. -/
structure SessionMove (u : Uuid) (w w' : World) (c : Client) (sh : Shared) (pc pc' : Pc)
    (n n' : Nat) : Prop where
  seqs : SeqMove u w.backend c.shared n sh n'
  tickets : ∀ held used, Lib.Tickets (pc.held?.toList ++ held) (pc.appended?.toList ++ used) n →
    Lib.Tickets (pc'.held?.toList ++ held) (pc'.appended?.toList ++ used) n'
  written : ∀ q, positionSlot u w'.backend q ≠ .unwritten ↔
    positionSlot u w.backend q ≠ .unwritten ∨ pc'.appended? = some q
  holds : ∀ data opc, pc' = .op (.append data) opc → opc.InFlight → opc.Holds sh

/-- A step of an append that does not fail. -/
theorem AppendStep.session {b : Store} {data : String} {sh sh' : Shared} {pc pc' : OpPc}
    (h : AppendStep sh pc sh' pc') (hpc : pc.InFlight) (hok : ∀ e, pc' ≠ .done (.error e))
    (hcount : sh.seqs ≠ [] → sh.counter = n) (hlt : n < 2 ^ 64) :
    ∃ n', SeqMove u b sh n sh' n' ∧ ∀ held used,
      Lib.Tickets ((Pc.op (.append data) pc).held?.toList ++ held)
        ((Pc.op (.append data) pc).appended?.toList ++ used) n →
      Lib.Tickets ((Pc.op (.append data) pc').held?.toList ++ held)
        ((Pc.op (.append data) pc').appended?.toList ++ used) n' := by
  rw [Pc.held?_append hpc, Pc.appended?_append hpc]
  cases h with
  | failed sh' e => exact absurd rfl (hok e)
  | seeks v hnone =>
    -- it looks for the current view, and holds nothing
    refine ⟨n, .same rfl, fun held used ht => ?_⟩
    rw [hnone] at ht
    exact ht
  | draws v seq hfrom hd hpos hin hf =>
    refine ⟨n + 1, .drawn seq hd, fun held used ht => ?_⟩
    have hnext := hcount hd.ne_nil
    -- the counter is the number of positions drawn so far, as it has not wrapped
    rw [hd.counter] at hnext
    have htail : seq.tail = n := by
      unfold Sequencer.tail
      rw [hnext, Nat.mod_eq_of_lt hlt]
    rw [Pc.held?_append hf, Pc.appended?_append hf, hpos, htail]
    subst hfrom
    exact ht.draw
  | keeps p hp hp' hin hseqs hf =>
    refine ⟨n, .same hseqs, fun held used ht => ?_⟩
    rw [Pc.held?_append hf, Pc.appended?_append hf, hp', ← hp]
    exact ht
  | writes v oid p pe hfrom =>
    -- the write of the position it held
    refine ⟨n, .same rfl, fun held used ht => ?_⟩
    subst hfrom
    exact ht.use

/-- A thread that runs no append neither draws nor returns a position. -/
theorem Sessions.other (hB : Sessions u name w n) (hc : w.clients[cid]? = some c) {tid : Nat}
    {t : Thread} (ht : c.threads[tid]? = some t) {sh : Shared} {pc : Pc}
    (hstep : PcStep u w.backend c.shared t.pc w'.backend pc)
    (hmv : Moves name c t.pc w.backend sh pc w'.backend)
    (hno : ∀ data opc, t.pc ≠ .op (.append data) opc) :
    SessionMove u w w' c sh t.pc pc n n := by
  have hno' : ∀ data opc, pc ≠ .op (.append data) opc := by
    rintro data opc rfl
    obtain ⟨opc₀, heq, -⟩ := hstep.op hmv
    exact hno data opc₀ heq
  have hheld : ∀ pc : Pc, (∀ data opc, pc ≠ .op (.append data) opc) →
      pc.held? = none ∧ pc.appended? = none := by
    intro pc hpc
    cases pc with
    | op r opc =>
      cases r with
      | append data => exact absurd rfl (hpc data opc)
      | _ => exact ⟨rfl, rfl⟩
    | _ => exact ⟨rfl, rfl⟩
  obtain ⟨hh, ha⟩ := hheld t.pc hno
  obtain ⟨hh', ha'⟩ := hheld pc hno'
  refine ⟨?_, ?_, ?_, ?_⟩
  · rcases hB.seqMove hc ht hmv n with h | ⟨data, v, seq, hpc, -⟩
    · exact h
    · exact absurd hpc (hno _ _)
  · intro held used htick
    rw [hh, ha] at htick
    rw [hh', ha']
    exact htick
  · -- only appends change a slot in these runs
    intro q
    rw [ha']
    have hmem := List.mem_of_getElem? hc
    have htmem := List.mem_of_getElem? ht
    rcases hmv.slots hB.toInv (hB.topped.gentle c hmem t htmem) hmem htmem hstep with
      hsame | ⟨data, p, hpc, -⟩
    · rw [hsame q]
      simp
    · exact absurd hpc (hno' _ _)
  · intro data opc hpc
    exact absurd hpc (hno' data opc)

/-- **An append** of the session draws the next position, keeps its position, or writes it. -/
theorem Sessions.append (hB : Sessions u name w n) (hn : n < 2 ^ 64) (h : InSession u w c n)
    {tid : Nat}
    (hrun : w.step (.run cid tid) = some w') (hc : w.clients[cid]? = some c) {t t' : Thread}
    (ht : c.threads[tid]? = some t) {sh : Shared} (ht' : w'.thread? cid tid = some t')
    (hstep : PcStep u w.backend c.shared t.pc w'.backend t'.pc)
    (hmv : Moves name c t.pc w.backend sh t'.pc w'.backend) {data : String} {opc : OpPc}
    (hpc : t.pc = .op (.append data) opc)
    (hfree : ∀ p, t.pc.held? = some p → positionSlot u w.backend p = .unwritten) :
    ∃ n', SessionMove u w w' c sh t.pc t'.pc n n' := by
  have hmem := List.mem_of_getElem? hc
  have htmem := List.mem_of_getElem? ht
  have hslots := hmv.slots hB.toInv (hB.topped.gentle c hmem t htmem) hmem htmem hstep
  obtain ⟨opc', hpc'⟩ : ∃ opc', t'.pc = .op (.append data) opc' := by
    rw [hpc] at hstep
    obtain ⟨opc', heq, -⟩ := hstep
    exact ⟨opc', heq⟩
  rw [hpc'] at hstep hmv hslots
  obtain ⟨opc₀, heq, hflight, hop⟩ := hstep.op hmv
  rw [hpc] at heq
  cases heq
  rw [hpc] at hmv
  have hrunning : t.Running := ⟨.append data, opc, hpc, hflight⟩
  have happend : AppendStep c.shared opc sh opc' := by
    rcases h.append_step hB.toCore hmem htmem hpc hflight hmv with happend | hgives
    · exact happend
    · -- nobody else uses the position
      obtain ⟨p, hp, htaken⟩ := hgives.taken
      rw [hpc, Pc.held?_append hflight] at hfree
      exact absurd (hfree p hp) htaken
  have hanswer : ∀ result, opc' = .done result →
      ∃ p, result = .ok (.position p) ∧ positionSlot u w.backend p = .unwritten ∧
        positionSlot u w'.backend p = .written data := by
    -- the answers of an append: the log is shut down, no sequencer, or a position that it wrote
    intro result hdone
    rcases hop.answer result hdone with ⟨-, hshut⟩ | heio | hok
    · rw [(hB.life c hmem).shutdown_false htmem hrunning] at hshut
      cases hshut
    · rw [hdone, heio] at hpc'
      exact absurd hpc' (h.no_eio hB.toCore hrun hc htmem hrunning (r := .append data) trivial ht')
    · exact hok
  have herror : ∀ e, opc' ≠ .done (.error e) := by
    intro e hdone
    obtain ⟨p, hp, -⟩ := hanswer _ hdone
    cases hp
  obtain ⟨n', hseqs, htick⟩ := happend.session (b := w.backend) hflight herror h.counter hn
  rw [hpc, hpc']
  refine ⟨n', hseqs, htick, ?_, ?_⟩
  · intro q
    -- either no slot changes, or the append writes its own and returns it
    rcases hslots with hsame | ⟨data', p, heq, hframe⟩
    · -- an append that returned has changed its slot
      rw [hsame q]
      refine ⟨Or.inl, ?_⟩
      rintro (hq | hq)
      · exact hq
      · cases hdone : opc' with
        | done result =>
          obtain ⟨p, rfl, hold, hnew⟩ := hanswer result hdone
          rw [hsame p, hold] at hnew
          cases hnew
        | _ =>
          rw [hdone] at hq
          cases hq
    · cases heq
      obtain ⟨p', hp', hold, hnew⟩ := hanswer _ rfl
      cases hp'
      by_cases hqp : q = p
      · subst hqp
        simp [hnew, Pc.appended?]
      · rw [hframe q hqp]
        have hne : p ≠ q := Ne.symm hqp
        simp [Pc.appended?, hne]
  · intro data' opc₁ heq hf
    cases heq
    exact happend.holds (h.holds t htmem data opc hpc hflight) hf

/-- An operation that moves has not returned. -/
theorem Moves.not_appended {pc pc' : Pc} {b b' : Store} {sh : Shared}
    (h : Moves name c pc b sh pc' b') : pc.appended? = none := by
  unfold Pc.appended?
  split
  · exact absurd Pc.move_done h.ne_none
  · rfl

/-- The tickets of all threads after one of them has moved. -/
theorem SessionMove.collected {t t' : Thread} {sh : Shared}
    (hm : SessionMove u w w' c sh t.pc t'.pc n n') (hnone : t.pc.appended? = none)
    (hcol : ∀ f : Pc → Option Nat, ∃ rest, (w.collect f).Perm ((f t.pc).toList ++ rest) ∧
      (w'.collect f).Perm ((f t'.pc).toList ++ rest))
    (ht : Lib.Tickets w.held w.appended n)
    (hw : ∀ p, positionSlot u w.backend p ≠ .unwritten ↔ p ∈ w.appended) :
    Lib.Tickets w'.held w'.appended n' ∧
      ∀ p, positionSlot u w'.backend p ≠ .unwritten ↔ p ∈ w'.appended := by
  -- the positions of the other threads are the same before and after
  obtain ⟨held, hheld, hheld'⟩ := hcol Pc.held?
  obtain ⟨used, hused, hused'⟩ := hcol Pc.appended?
  refine ⟨?_, ?_⟩
  · have hmoved := hm.tickets held used (ht.congr hheld.symm hused.symm)
    exact hmoved.congr hheld' hused'
  · intro p
    have hold : p ∈ w.appended ↔ p ∈ used := by
      rw [World.appended, hused.mem_iff, hnone]
      simp
    have hnew : p ∈ w'.appended ↔ t'.pc.appended? = some p ∨ p ∈ used := by
      rw [World.appended, hused'.mem_iff]
      simp
    rw [hm.written p, hw p, hold, hnew]
    exact or_comm

/-! ## Seeds -/

/-- No position is held while no operation runs. -/
theorem World.held_eq_nil (h : ∀ c ∈ w.clients, ∀ t ∈ c.threads, ¬ t.Running) : w.held = [] := by
  apply List.eq_nil_iff_forall_not_mem.mpr
  intro p hp
  obtain ⟨c, hc, hp⟩ := List.mem_flatMap.mp hp
  obtain ⟨t, ht, hp⟩ := List.mem_filterMap.mp hp
  apply h c hc t ht
  cases hpc : t.pc with
  | op r opc =>
    refine ⟨r, opc, hpc, ?_⟩
    rintro result rfl
    rw [hpc] at hp
    cases r <;> cases hp
  | _ =>
    rw [hpc] at hp
    cases hp

/-- A position that is held has not been written. -/
theorem Sessions.free (hS : Sessions u name w n) (hc : c ∈ w.clients) {t : Thread}
    (ht : t ∈ c.threads) {p : Nat} (hp : t.pc.held? = some p) :
    positionSlot u w.backend p = .unwritten := by
  have hheld : p ∈ w.held :=
    List.mem_flatMap.mpr ⟨c, hc, List.mem_filterMap.mpr ⟨t, ht, hp⟩⟩
  by_contra hne
  exact hS.tickets.not_used hheld ((hS.written p).mp hne)

/-- **The seed** that is accepted is the number of positions handed out before. -/
theorem Sessions.seed (hS : Sessions u name w n) (hn : n < 2 ^ 64) (hc : w.clients[cid]? = some c)
    (hlast : cid + 1 = w.clients.length) {tid retries seed : Nat} {curr : VersionedView}
    {t : Thread}
    (ht : c.threads[tid]? = some t) (hpc : t.pc = .opener (.propose (.propose retries curr seed)))
    (ha : Accepts u w w' (curr.epoch + 1) seed)
    (hwritten : ∀ q, positionSlot u w'.backend q = .unwritten →
      positionSlot u w.backend q = .unwritten) : seed = n := by
  have hmem := List.mem_of_getElem? hc
  have htmem := List.mem_of_getElem? ht
  -- the client proposes itself, so its log is not open, and those before it are over
  have hidle : ∀ d ∈ w.clients, ∀ t ∈ d.threads, ¬ t.Running := by
    intro d hd t₁ ht₁ hr
    obtain ⟨i, hi⟩ := List.mem_iff_getElem?.mp hd
    by_cases hil : i + 1 < w.clients.length
    · exact (Client.ended_spec (hS.life d hd) (hS.ended i d hi hil)).1 t₁ ht₁ hr
    · obtain rfl : i = cid := by
        have hlt := lt_of_getElem?_eq_some hi
        omega
      rw [hc] at hi
      cases hi
      -- while an operation runs the log is open
      obtain ⟨t₀, pc₀, ht₀, hpc₀, hopen, -⟩ := (hS.life c hmem).opener
      rw [hopen ⟨t₁, ht₁, hr⟩] at hpc₀
      cases (hS.life c hmem).opener_unique htmem (List.mem_of_getElem? ht₀) hpc hpc₀
  have htickets := hS.tickets
  rw [World.held_eq_nil hidle] at htickets
  have htops := hS.log.topsUsed hS.topped.objects
  -- the greatest position in use is one that was handed out
  have hroom : HasRoom u w.backend := htops.hasRoom fun x hx => by
    have hlt := htickets.lt (Or.inl ((hS.written x).mp hx))
    omega
  have htop : ∀ x, seed = x + 1 → positionSlot u w.backend x ≠ .unwritten :=
    fun x => hS.toInv.accepts_top htops hroom ha
  have hfree := (hS.toInv.accepts_unwrapped ha hroom).free
  -- the seed is behind the greatest position in use, and no position in use is at the seed
  apply Nat.le_antisymm
  · cases hseed : seed with
    | zero => exact Nat.zero_le n
    | succ x => exact htickets.lt (Or.inl ((hS.written x).mp (htop x hseed)))
  · by_contra hlt
    have hused : seed ∈ w.appended := by
      have hall := htickets.mem_iff (a := seed)
      rw [List.append_nil, List.mem_range] at hall
      exact hall.mpr (by omega)
    exact (hS.written seed).mpr hused (hwritten seed (hfree seed (le_refl seed)))

/-! ## What a step keeps -/

/-- **A thread of the last client** takes a step of the session. -/
theorem Sessions.ran_last (hS : Sessions u name w n) (hn : n < 2 ^ 64)
    (hnul : '\x00' ∉ name.toList) {tid : Nat}
    (h : w.step (.run cid tid) = some w') (hc : w.clients[cid]? = some c)
    (hset : w'.clients = w.clients.set cid c') (hlast : cid + 1 = w.clients.length)
    {t t' : Thread} {sh : Shared} (ht : c.threads[tid]? = some t)
    (heq : c' = { c with shared := sh, threads := c.threads.set tid t' })
    (ht' : w'.thread? cid tid = some t')
    (hpc : PcStep u w.backend c.shared t.pc w'.backend t'.pc)
    (hmv : Moves name c t.pc w.backend sh t'.pc w'.backend) :
    ∃ n', SessionMove u w w' c sh t.pc t'.pc n n' ∧ OneSession u name w' n' := by
  have hmem := List.mem_of_getElem? hc
  have htmem := List.mem_of_getElem? ht
  -- an append, or any other thread
  by_cases happ : ∃ data opc, t.pc = .op (.append data) opc
  · obtain ⟨data, opc, hop⟩ := happ
    obtain ⟨n', hm⟩ := hS.append hn (hS.last cid c hc hlast) h hc ht ht' hpc hmv hop
      fun p hp => hS.free hmem htmem hp
    refine ⟨n', hm, hS.ran hnul h hc hset hlast ht heq hpc hmv hm.seqs hm.holds ?_⟩
    intro retries curr seed hprop
    rw [hop] at hprop
    cases hprop
  · have hm := hS.other hc ht hpc hmv fun data opc hop => happ ⟨data, opc, hop⟩
    refine ⟨n, hm, hS.ran hnul h hc hset hlast ht heq hpc hmv hm.seqs hm.holds ?_⟩
    intro retries curr seed hop hacc
    refine hS.seed hn hc hlast ht hop hacc fun q hq => ?_
    by_contra hne
    exact (hm.written q).mpr (Or.inl hne) hq

/-- **Step lemma.** -/
theorem Sessions.step (hS : Sessions u name w n) (hn : n < 2 ^ 64) (hnul : '\x00' ∉ name.toList)
    (hok : OneClient w a) (h : w.step a = some w') : ∃ n', Sessions u name w' n' := by
  have htopped := hS.topped.step hS.toInv hok.gentle h
  rcases hS.toInv.collect_step h with ⟨options, host, rfl, hclients, hb⟩ | ⟨cid, c, c', hc, hset, hs⟩
  · -- a new client shows no positions
    have hcollect : ∀ f : Pc → Option Nat, OfOps f → f (.opener .openLog) = none →
        w'.collect f = w.collect f := by
      intro f hf hnone
      unfold World.collect
      rw [hclients, List.flatMap_append, List.flatMap_singleton,
        Client.collect_new hf.toOfThreads, hnone]
      exact List.append_nil _
    refine ⟨n, .of_open (hS.toCore.step h) hok hclients n, htopped, ?_, ?_⟩
    · unfold World.held World.appended
      rw [hcollect _ ofOps_held rfl, hcollect _ ofOps_appended rfl]
      exact hS.tickets
    · intro p
      unfold World.appended
      rw [hb, hcollect _ ofOps_appended rfl]
      exact hS.written p
  · cases hs with
    -- a step of the environment shows no position
    | quiet hb hr hshows =>
      have hcollect : ∀ f : Pc → Option Nat, OfOps f → w'.collect f = w.collect f :=
        fun f hf => World.collect_same hc hset (hshows.ofOps hf)
      refine ⟨n, hS.rests h hc hset hb hr, htopped, ?_, ?_⟩
      · unfold World.held World.appended
        rw [hcollect _ ofOps_held, hcollect _ ofOps_appended]
        exact hS.tickets
      · intro p
        unfold World.appended
        rw [hb, hcollect _ ofOps_appended]
        exact hS.written p
    | ran tid t t' sh ht ha heq ht' hpc hmv =>
      have hlt := lt_of_getElem?_eq_some hc
      have hcollected := fun {n'} (hm : SessionMove u w w' c sh t.pc t'.pc n n') =>
        hm.collected hmv.not_appended (fun f => World.collect_perm f hc ht hset heq) hS.tickets
          hS.written
      -- a client that is over, or the last one
      by_cases hover : cid + 1 < w.clients.length
      · have hm := hS.other hc ht hpc hmv fun data opc hop => by
          apply hS.over_idle hc hover (List.mem_of_getElem? ht)
          refine ⟨.append data, opc, hop, fun result hd => hmv.ne_none ?_⟩
          rw [hop, hd]
          exact Pc.move_done
        obtain ⟨htickets, hwritten⟩ := hcollected hm
        exact ⟨n, hS.over h hc hset hover ha, htopped, htickets, hwritten⟩
      · subst ha
        obtain ⟨n', hm, hsession⟩ := hS.ran_last hn hnul h hc hset (by omega) ht heq ht' hpc hmv
        obtain ⟨htickets, hwritten⟩ := hcollected hm
        exact ⟨n', hsession, htopped, htickets, hwritten⟩

theorem Sessions.init {options : Options} {host : Host}
    (h : World.init name u options host = some w) : Sessions u name w 0 := by
  refine ⟨.init h, .init h, ?_, ?_⟩
  · obtain ⟨blob, b, -, -, rfl⟩ := World.init_eq h
    exact Lib.Tickets.none_drawn
  · intro p
    rw [positionSlot_init h p]
    refine ⟨fun hne => absurd rfl hne, fun hp => ?_⟩
    obtain ⟨blob, b, -, -, rfl⟩ := World.init_eq h
    cases hp

/-- At most as many positions were handed out as appends were invoked. -/
theorem Sessions.le_appends (hS : Sessions u name w n) : n ≤ w.appends := by
  rw [← hS.tickets.length]
  exact w.drawn_le_appends

/-- **Run lemma.** -/
theorem Sessions.of_run {options : Options} {host : Host}
    (h₀ : World.init name u options host = some w₀) (hnul : '\x00' ∉ name.toList)
    (h : Lib.Run World.step OneClient w₀ w) (hfew : w.appends < 2 ^ 64) :
    ∃ n, Sessions u name w n := by
  -- the number of appends bounds the counter in every earlier state too
  have hbelow := h.bounded (I := Inv u name) (fun t a v hI _ hs => (hI.step hs).1)
    (fun t a v hI _ hs => hI.appends_le hs) (.init h₀) hfew
  refine hbelow.invariant (I := fun w => ∃ n, Sessions u name w n) ?_ ⟨0, .init h₀⟩
  rintro t a v ⟨n, hS⟩ ⟨hok, hlt⟩ hs
  exact hS.step (lt_of_le_of_lt hS.le_appends hlt) hnul hok hs

/-! ## The tail -/

/-- A `CheckTail` that the client makes now returns `n`, when its thread is the only one to move. -/
def World.TailIs (w : World) (cid n : Nat) : Prop :=
  ∃ c w' t, w.clients[cid]? = some c ∧
    Lib.exec World.step w [.invoke cid .checkTail, .run cid c.threads.length,
      .run cid c.threads.length] = some w' ∧
    w'.thread? cid c.threads.length = some t ∧ t.pc = .op .checkTail (.done (.ok (.position n)))

/-- A thread of a live client makes an access to the memory. -/
theorem World.step_memory {tid : Nat} {t : Thread} {sh : Shared} {pc : Pc}
    (hc : w.clients[cid]? = some c) (ha : c.shared.aborted = false) (ht : c.threads[tid]? = some t)
    (hm : t.pc.move w.name c = some (.memory sh pc)) :
    ∃ w' c' t', w.step (.run cid tid) = some w' ∧ w'.clients[cid]? = some c' ∧ c'.shared = sh ∧
      c'.threads[tid]? = some t' ∧ t'.pc = pc := by
  refine ⟨w.runMove cid tid c t (.memory sh pc), _, _, ?_,
    List.getElem?_set_self (lt_of_getElem?_eq_some hc), rfl,
    List.getElem?_set_self (lt_of_getElem?_eq_some ht), rfl⟩
  simp [World.step, hc, ha, ht, hm]

/-- A `CheckTail` of an open log that has a sequencer. -/
theorem World.tailIs_of_counter (hc : w.clients[cid]? = some c) (hopen : c.isOpen = true)
    {lb : LogBackend} (hlb : c.shared.backend = some lb) {cur : VersionedView}
    (hcur : c.shared.view = some cur) (hseq : cur.seq = some 0) {seq : Sequencer}
    (hfound : c.shared.seqs[0]? = some seq) : w.TailIs cid seq.tail := by
  have ha : c.shared.aborted = false := by
    simp only [Client.isOpen, Bool.and_eq_true, Bool.not_eq_true'] at hopen
    exact hopen.1
  -- the three steps: the call, the view and the sequencer
  obtain ⟨w₀, c₀, t₀, h₀, hc₀, hsh₀, ht₀, hpc₀⟩ : ∃ w₀ c₀ t₀,
      w.step (.invoke cid .checkTail) = some w₀ ∧ w₀.clients[cid]? = some c₀ ∧
      c₀.shared = c.shared ∧ c₀.threads[c.threads.length]? = some t₀ ∧
      t₀.pc = .op .checkTail (.start 0 none) := by
    refine ⟨w.setClient cid { c with
      threads := c.threads ++ [⟨.op .checkTail (.start 0 none), w.clock, none, []⟩] }, _, _, ?_,
      List.getElem?_set_self (lt_of_getElem?_eq_some hc), rfl, List.getElem?_concat_length, rfl⟩
    simp only [World.step, hc, hopen]
    rfl
  have hm₀ : t₀.pc.move w₀.name c₀ = some (.memory c.shared (.op .checkTail (.sequence cur 0))) := by
    simp only [hpc₀, Pc.move, hsh₀, hlb, Request.run, tailOp, Shared.withView, hcur, hseq]
    rfl
  obtain ⟨w₁, c₁, t₁, h₁, hc₁, hsh₁, ht₁, hpc₁⟩ := World.step_memory hc₀ (hsh₀ ▸ ha) ht₀ hm₀
  have hm₁ : t₁.pc.move w₁.name c₁ =
      some (.memory c.shared (.op .checkTail (.done (.ok (.position seq.tail))))) := by
    simp only [hpc₁, Pc.move, hsh₁, hlb, Request.run, tailOp, hfound]
    rfl
  obtain ⟨w₂, c₂, t₂, h₂, hc₂, -, ht₂, hpc₂⟩ := World.step_memory hc₁ (hsh₁ ▸ ha) ht₁ hm₁
  refine ⟨c, w₂, t₂, hc, ?_, World.thread?_eq_some.mpr ⟨c₂, hc₂, ht₂⟩, hpc₂⟩
  simp only [Lib.exec, h₀, h₁, h₂]

/-- The log of the last client is open: its tail is behind the positions handed out. -/
theorem Sessions.tailIs (hS : Sessions u name w n) (hn : n < 2 ^ 64) (hc : w.clients[cid]? = some c)
    (hopen : c.isOpen = true) : w.TailIs cid n := by
  have hmem := List.mem_of_getElem? hc
  obtain ⟨t, ht, hpc⟩ : ∃ t ∈ c.threads, t.pc = .opener .opened := by
    simp only [Client.isOpen, Bool.and_eq_true, List.any_eq_true, decide_eq_true_eq] at hopen
    exact hopen.2
  -- the open log is that of the last client
  have hlast : cid + 1 = w.clients.length := by
    have hlt := lt_of_getElem?_eq_some hc
    by_contra hne
    have hover := hS.ended cid c hc (by omega)
    rcases (Client.ended_spec (hS.life c hmem) hover).2 t ht _ hpc with h | ⟨e, h⟩
    · cases h
    · cases h
  have hsession := hS.last cid c hc hlast
  have hne := hsession.ready t ht _ hpc trivial
  obtain ⟨cur, hcur, hseq⟩ := hsession.view hS.toCore hmem hne
  cases hlb : c.shared.backend with
  | none => exact absurd ((hS.sequencers.seqs c hmem).blank hlb).2 hne
  | some lb =>
    cases hfound : c.shared.seqs[0]? with
    | none => exact absurd (List.getElem?_eq_none_iff.mp hfound) (by simpa using hne)
    | some seq =>
      -- the counter did not wrap, so the tail is the counter
      have hcount := hsession.counter hne
      unfold Shared.counter at hcount
      rw [hfound] at hcount
      have hcount : seq.position = n := hcount
      have htail : seq.tail = n := by
        unfold Sequencer.tail
        rw [hcount, Nat.mod_eq_of_lt hn]
      rw [← htail]
      exact World.tailIs_of_counter hc hopen hlb hcur hseq hfound

/-! ## Names with a NUL -/

/-- A token with a NUL is not found among the configurations that are stored. -/
theorem Core.not_owns (hB : Core u name w) (hnul : '\x00' ∈ name.toList) (hc : c ∈ w.clients)
    {e : Nat} {v : View} {cfg : SequencerConfig} (hv : ViewAt (viewsOf u w.backend) e v)
    (hcfg : v.seqConfig = some cfg) : ¬ c.shared.Owns cfg := by
  rintro ⟨lb, hlb, htok⟩
  obtain ⟨id, hid⟩ := hB.owners.handle c hc lb hlb
  -- a configuration is stored in the form that reading it gives
  have hstored : cStr cfg.token = cfg.token := by
    have hself := congrArg View.seqConfig (hB.log.history.storable v hv.mem).2
    simp only [View.stored, hcfg, Option.map_some, Option.some.injEq] at hself
    exact congrArg SequencerConfig.token hself
  rw [htok, hid, cStr_eq_iff, nulFree_makeToken_iff] at hstored
  exact hstored hnul

/-- So no `CheckTail` returns a position. -/
theorem Core.no_tail (hB : Core u name w) (hnul : '\x00' ∈ name.toList) {tid : Nat}
    (h : w.step (.run cid tid) = some w') {t' : Thread} (ht' : w'.thread? cid tid = some t')
    {result : Ret Reply} (hpc' : t'.pc = .op .checkTail (.done result)) : result = .error .eio := by
  obtain ⟨c, t, opc, sh, hc, ht, hpc, hflight, hmv⟩ := hB.toInv.run_done h ht' hpc'
  have hmem := List.mem_of_getElem? hc
  have hnil : c.shared.seqs = [] := by
    by_contra hne
    obtain ⟨-, e, v, cfg, -, -, hv, hcfg, ho, -⟩ := (hB.sequencers.seqs c hmem).made hne
    exact hB.not_owns hnul hmem hv hcfg ho
  have hgives : ∀ lb, c.shared.backend = some lb →
      Gives w.backend c.shared (fun _ pc' => ∀ r, pc' = .done r → r = .error .eio)
        (Request.checkTail.run c.options lb c.shared opc) := by
    intro lb _
    simp only [Request.run]
    -- the two stages of a `CheckTail`: finding the view, and reading the counter
    cases opc with
    | start p pe =>
      refine Lands.gives (Lands.withView fun v hv => ?_)
      split
      · intro r hr
        cases hr
        rfl
      · next i hi => exact absurd hnil ((hB.sequencers.seqs c hmem).attached v i hv hi).2.2
    | sequence v i =>
      simp only [tailOp, hnil]
      trivial
    | _ => trivial
  exact hmv.gives_op hgives result rfl

theorem Core.not_tailIs (hB : Core u name w) (hnul : '\x00' ∈ name.toList) : ¬ w.TailIs cid n := by
  rintro ⟨c, w', t, -, hexec, ht, hpc⟩
  -- the three steps of the run
  simp only [Lib.exec] at hexec
  split at hexec
  · next w₀ h₀ =>
    split at hexec
    · next w₁ h₁ =>
      split at hexec
      · next w₂ h₂ =>
        cases hexec
        have hB₁ := (hB.step h₀).step h₁
        cases hB₁.no_tail hnul h₂ ht hpc
      · cases hexec
    · cases hexec
  · cases hexec

/-! ## Gapless appends -/

theorem Pc.held?_of_idle {pc : Pc} (h : pc.appending = false) : pc.held? = none := by
  cases pc with
  | op r opc =>
    cases r with
    | append data =>
      cases opc with
      | done result => rfl
      | _ => cases h
    | _ => rfl
  | _ => rfl

/-- While no append is in progress, no position is out. -/
theorem World.held_of_idle (h : w.appending = false) : w.held = [] := by
  apply List.eq_nil_iff_forall_not_mem.mpr
  intro p hp
  obtain ⟨c, hc, hp⟩ := List.mem_flatMap.mp hp
  obtain ⟨t, ht, hp⟩ := List.mem_filterMap.mp hp
  have hidle : t.pc.appending = false := by
    unfold World.appending at h
    rw [List.any_eq_false] at h
    have hc := h c hc
    rw [Bool.not_eq_true, List.any_eq_false] at hc
    exact Bool.not_eq_true _ ▸ hc t ht
  rw [Pc.held?_of_idle hidle] at hp
  cases hp

/-- The positions that appends have returned are the first ones, each once, and the tail is behind
    them. -/
structure World.Gapless (w : World) (cid : Nat) : Prop where
  positions : w.appended.Perm (List.range w.appended.length)
  tail : w.TailIs cid w.appended.length
  /-- Also of a `CheckTail` between other threads. -/
  tails : ∀ tid w' t result, w.step (.run cid tid) = some w' → w'.thread? cid tid = some t →
    t.pc = .op .checkTail (.done result) → result = .ok (.position w.appended.length)

/-- **Gapless appends**: let one client at a time work with the log, without fills and trims.
    Whenever no append is in progress, and fewer than `2 ^ 64` have been invoked, the positions
    returned over all sessions are the first ones, each once, and `CheckTail` returns their number,
    exactly when the name of the log contains no NUL. -/
theorem appends_gapless {options : Options} {host : Host}
    (h₀ : World.init name u options host = some w₀) (h : Lib.Run World.step OneClient w₀ w)
    (hidle : w.appending = false) (hfew : w.appends < 2 ^ 64) :
    ('\x00' ∉ name.toList → w.appended.Perm (List.range w.appended.length)) ∧
    ∀ cid c, w.clients[cid]? = some c → c.isOpen = true →
      (w.Gapless cid ↔ '\x00' ∉ name.toList) := by
  -- with a NUL-free name the invariant holds, and no position is held now
  have hsessions : '\x00' ∉ name.toList → Sessions u name w w.appended.length ∧
      w.appended.Perm (List.range w.appended.length) := by
    intro hnul
    obtain ⟨n, hS⟩ := Sessions.of_run h₀ hnul h hfew
    have htickets := hS.tickets
    rw [World.held_of_idle hidle] at htickets
    rw [htickets.length_used]
    exact ⟨hS, htickets.length_used ▸ htickets.used_all⟩
  refine ⟨fun hnul => (hsessions hnul).2, ?_⟩
  intro cid c hc hopen
  constructor
  · -- with a NUL there is no sequencer, and no tail
    intro hgapless hnul
    have hB : Core u name w := h.invariant (fun _ _ _ hB _ => hB.step) (.init h₀)
    exact hB.not_tailIs hnul hgapless.tail
  · intro hnul
    obtain ⟨hS, hperm⟩ := hsessions hnul
    have hlt := lt_of_le_of_lt hS.le_appends hfew
    refine ⟨hperm, hS.tailIs hlt hc hopen, fun tid w' t result hs ht hpc => ?_⟩
    obtain ⟨c, t, v, seq, hread⟩ := hS.checkTail hs ht hpc
    rw [hread.returned, Sequencer.tail, hread.counter, Nat.mod_eq_of_lt hlt]

end

namespace Sample

/-- The first client appends and closes the log. -/
def session : List Action :=
  appended ++ .close 0 :: steps 0 0 2 ++ steps 0 1 1 ++ steps 0 2 1 ++ steps 0 3 1 ++ steps 0 0 1

/-- The log is opened once more. -/
def reopened : List Action :=
  session ++ .open options host :: steps 1 0 11 ++ steps 1 1 5 ++ steps 1 0 1

end Sample

set_option maxRecDepth 100000 in
/-- One append, and a second session. -/
theorem appends_gapless_reopened :
    ∃ w, Sample.worldIf OneClient Sample.reopened = some w ∧ w.appended = [0] ∧ w.Gapless 1 := by
  have hrun : (Sample.worldIf OneClient Sample.reopened).bind (fun w => w.clients[1]?.map fun c =>
      (w.appended, w.appending, w.appends, c.isOpen)) = some ([0], false, 1, true) := by
    decide +kernel
  obtain ⟨w, hw, hc⟩ := Option.bind_eq_some_iff.mp hrun
  obtain ⟨c, hc, hshow⟩ := Option.map_eq_some_iff.mp hc
  simp only [Prod.mk.injEq] at hshow
  obtain ⟨happended, hidle, hone, hopen⟩ := hshow
  obtain ⟨w₀, h₀, h⟩ := Sample.runs hw
  have hfew : w.appends < 2 ^ 64 := by omega
  exact ⟨w, hw, happended, ((appends_gapless h₀ h hidle hfew).2 1 c hc hopen).mpr (by decide)⟩

/-- In a log whose name contains a NUL, the tail of the only client is not the number of positions
    returned: `CheckTail` returns `-EIO`. -/
theorem gapless_fails :
    ∃ w₀ w c w' t, World.init "a\x00b" Sample.uuid Sample.options Sample.host = some w₀ ∧
      Lib.Run World.step OneClient w₀ w ∧ w.appending = false ∧ w.clients[0]? = some c ∧
      c.isOpen = true ∧ ¬ w.Gapless 0 ∧
      Lib.exec World.step w [.invoke 0 .checkTail, .run 0 4] = some w' ∧
      w'.thread? 0 4 = some t ∧ t.pc = .op .checkTail (.done (.error .eio)) := by
  have hrun : (World.init "a\x00b" Sample.uuid Sample.options Sample.host).bind (fun w₀ =>
      (Lib.exec (fun w a => if OneClient w a then w.step a else none) w₀ Sample.opened).bind fun w =>
        w.clients[0]?.bind fun c =>
          (Lib.exec World.step w [.invoke 0 .checkTail, .run 0 4]).bind fun w' =>
            (w'.thread? 0 4).map fun t => (w.appending, c.isOpen, t.pc)) =
      some (false, true, .op .checkTail (.done (.error .eio))) := by decide +kernel
  obtain ⟨w₀, h₀, hrun⟩ := Option.bind_eq_some_iff.mp hrun
  obtain ⟨w, hw, hrun⟩ := Option.bind_eq_some_iff.mp hrun
  obtain ⟨c, hc, hrun⟩ := Option.bind_eq_some_iff.mp hrun
  obtain ⟨w', hw', hrun⟩ := Option.bind_eq_some_iff.mp hrun
  obtain ⟨t, ht, hshow⟩ := Option.map_eq_some_iff.mp hrun
  simp only [Prod.mk.injEq] at hshow
  obtain ⟨hidle, hopen, hpc⟩ := hshow
  have h := Lib.run_of_exec_guard _ hw
  have hB : Core Sample.uuid "a\x00b" w := h.invariant (fun _ _ _ hB _ => hB.step) (.init h₀)
  exact ⟨w₀, w, c, w', t, h₀, h, hidle, hc, hopen, fun hg => hB.not_tailIs (by decide) hg.tail, hw',
    ht, hpc⟩

end ZLog
