import ZLog.Lib.Legal
import ZLog.System.Owners
import ZLog.System.Tops
import ZLog.System.TrimContract

/-!
# The positions of a log as one atomic object

Any number of clients work with the log at the same time.  What they see of it is an array of
positions, each of which is unwritten, holds data or is invalid, and every operation that returns
takes effect on this array in one step, the one in which it returns.  Only `trimTo` is not atomic:
while it is under way it makes positions invalid one object at a time.

## Main results

- `Good.atomic_step`: a step of the system is silent, erases positions for a `trimTo` that is under
  way, or is an operation taking effect.
- `linearizable`: the operations that have returned, in the order in which they did, are a legal
  history of the array, and the array is what the backend stores.
-/

namespace ZLog

/-! ## The array -/

/-- The states of all positions. -/
abbrev Slots := Nat → Slot

/-- What is left when a position is filled. -/
def Slot.filled : Slot → Slot
  | .written data => .written data
  | _ => .invalid

/-- Positions up to `p` become invalid. -/
def Slots.Erased (p : Nat) (s s' : Slots) : Prop := ∀ q, s' q = s q ∨ q ≤ p ∧ s' q = .invalid

/-- What an operation returns when it takes effect, and the array after it. -/
inductive Slots.Step (s : Slots) : Request → Ret Reply → Slots → Prop where
  | append (data : String) (p : Nat) : s p = .unwritten →
      Step s (.append data) (.ok (.position p)) (Function.update s p (.written data))
  /-- The client has no sequencer. -/
  | unsequenced (data : String) : Step s (.append data) (.error .eio) s
  | read (p : Nat) : Step s (.read p) (readAnswer (s p)) s
  | fill (p : Nat) : Step s (.fill p) (fillAnswer (s p)) (Function.update s p (s p).filled)
  | trim (p : Nat) : Step s (.trim p) (.ok .unit) (Function.update s p .invalid)
  | trimTo (p : Nat) : Step s (.trimTo p) (.ok .unit) fun q => if q ≤ p then .invalid else s q
  | checkTail (p : Nat) : Step s .checkTail (.ok (.position p)) s
  | untailed : Step s .checkTail (.error .eio) s

/-- A point in time at which the array is looked at or changed. -/
inductive Point where
  /-- An operation takes effect. -/
  | takes (x : OpRecord)
  /-- A `trimTo` that is under way erases positions. -/
  | erases (cid tid position time : Nat)

def Point.time : Point → Nat
  | .takes x => x.done
  | .erases _ _ _ time => time

/-- What happens to the array at a point. -/
inductive Point.Step (s : Slots) : Point → Slots → Prop where
  | takes {x : OpRecord} {s' : Slots} : s.Step x.request x.result s' → Step s (.takes x) s'
  | erases {s' : Slots} (cid tid p time : Nat) : s.Erased p s' → Step s (.erases cid tid p time) s'

/-- The thread is in a `trimTo` that was under way at the time. -/
def World.Trimming (w : World) (cid tid p time : Nat) : Prop :=
  ∃ t pc, w.thread? cid tid = some t ∧ t.pc = .op (.trimTo p) pc ∧ t.invokedAt < time ∧
    ∀ done, t.doneAt = some done → time < done

section

variable {u : Uuid} {name : String} {b b' : Store} {w w' w₀ : World} {a : Action} {c : Client}
  {cid tid : Nat} {t : Thread} {sh : Shared} {x : OpRecord}

/-! ## Facts about slots -/

/-- An append that has not returned has created nothing. -/
theorem Creates.position {opc : OpPc} {oid : String} {p : Nat}
    (h : Creates b b' opc) (hnew : newEntries b b' = [(oid, p)]) :
    opc = .done (.ok (.position p)) := by
  unfold Creates at h
  split at h
  · obtain ⟨oid', hnew'⟩ := h
    rw [hnew] at hnew'
    cases hnew'
    rfl
  · rw [hnew] at h
    cases h

/-- A thread that neither fills nor trims changes a slot only when its append returns the
    position. -/
theorem Moves.slots {pc : Pc} (hI : Inv u name w)
    (hT : ∀ r opc, t.pc = .op r opc → r.gentle = true) (hc : c ∈ w.clients) (ht : t ∈ c.threads)
    (hstep : PcStep u w.backend c.shared t.pc b' pc)
    (hmv : Moves name c t.pc w.backend sh pc b') :
    (∀ q, positionSlot u b' q = positionSlot u w.backend q) ∨
    ∃ data p, pc = .op (.append data) (.done (.ok (.position p))) ∧
      ∀ q, q ≠ p → positionSlot u b' q = positionSlot u w.backend q := by
  cases hmv with
  | access sh pc hm => exact Or.inl fun _ => rfl
  | call call next hm =>
    have hcok := hI.clients c hc
    have hok := hcok.threads t ht
    have hcall := Pc.move_callOk hI.log hcok.shared hok hm
    have hmakes := Pc.move_makes hok _ _ _ hm
    have hgentle : ¬ call.Invalidates := by
      rcases hmakes with hman | ⟨r, opc, htpc, hmk⟩
      · exact hman.gentle
      · exact hmk.gentle (hT r opc htpc)
    cases call with
    | write oid data e p =>
      rcases w.backend.write_cases oid data e p with ⟨err, -, hw⟩ | ⟨o, -, -, hw⟩ | ⟨o, -, -, hw⟩
      · exact Or.inl fun q => congrArg (fun x => positionSlot u x.2 q) hw
      · exact Or.inl fun q => congrArg (fun x => positionSlot u x.2 q) hw
      · -- the write has created an entry, so the append returns
        right
        rcases hmakes with hman | ⟨r, opc, htpc, rfl⟩
        · exact hman.elim
        · rw [htpc] at hstep
          obtain ⟨opc', heq, hop⟩ := hstep
          have hnew : newEntries w.backend (w.backend.exec (.write oid data e p)).2 =
              [(oid, p)] := newEntries_write (congrArg Prod.fst hw)
          have hdone := (hop.created data rfl).position hnew
          refine ⟨data, p, by rw [heq, hdone], ?_⟩
          intro q hq
          exact hcall.positionSlot_frame hI.log hq
    | fill => exact absurd trivial hgentle
    | trim => exact absurd trivial hgentle
    | _ => exact Or.inl fun q => hcall.positionSlot_frame hI.log id

/-- A new log holds nothing. -/
theorem positionSlot_init {options : Options} {host : Host}
    (h : World.init name u options host = some w) (p : Nat) :
    positionSlot u w.backend p = .unwritten := by
  rcases (Inv.init h).log.positionSlot_cases p with hu | ⟨s, i, -, heq⟩
  · exact hu
  · rw [heq]
    unfold RAMBackend.slotAt
    rw [logAt_init h]

/-- A trim with a limit leaves a slot as it is or makes it invalid. -/
theorem RAMBackend.slotAt_trim_range (b : Store) (oid : String) {e p : Nat} {f : Bool}
    (hfull : f = true → ∀ o, b.logAt oid = some o → ∀ k ∈ o.entries, k ≤ p) (oid' : String)
    (q : Nat) : (b.trim oid e p true f).2.slotAt oid' q = b.slotAt oid' q ∨
      q ≤ p ∧ (b.trim oid e p true f).2.slotAt oid' q = .invalid := by
  -- a trim that is refused leaves everything as it was
  rcases b.trim_cases oid e p true f with ⟨-, hl, -⟩ | ⟨err, -, heq⟩ | ⟨o, hio, hlf, heq⟩
  · cases hl
  · rw [heq]
    exact Or.inl rfl
  · obtain ⟨-, -, ho, -⟩ := checkIo_eq_ok.mp hio
    rw [heq]
    by_cases hoid : oid' = oid
    · subst hoid
      rw [slotAt_of_logAt (logAt_setLog b oid' _), slotAt_of_logAt ho,
        LogObject.slot_trim hlf (fun hf => hfull hf o ho)]
      split
      · next hq => exact Or.inr ⟨hq, rfl⟩
      · exact Or.inl rfl
    · left
      unfold slotAt
      rw [logAt_setLog_ne b _ hoid]

/-- The calls of a `trimTo` leave a position as it is or make it invalid. -/
theorem CallOk.erased (h : LogOk u name b) {α : Type} {call : Call Fbs.View α}
    (hc : CallOk u name b call) {p : Nat} (hmk : call.Manages ∨ (Request.trimTo p).Makes call) :
    Slots.Erased p (positionSlot u b) (positionSlot u (b.exec call).2) := by
  intro q
  have hkept := CallOk.exec h hc
  have hframe : ¬ call.Touches q → positionSlot u (b.exec call).2 q = positionSlot u b q :=
    hc.positionSlot_frame h
  have hviews := hc.viewsOf_eq
  -- of all calls only the range trim is left
  cases hc with
  | write data hv hm =>
    rcases hmk with hmk | hmk
    · exact hmk.elim
    · cases hmk
  | fill hv hm =>
    rcases hmk with hmk | hmk
    · exact hmk.elim
    · cases hmk
  | trim hv hm =>
    rcases hmk with hmk | hmk
    · exact hmk.elim
    · cases hmk
  | @trimRange e p' s i v stripe full hv hs hmin hmem =>
    obtain rfl : p = p' := by
      -- it is made by the `trimTo` of this position
      rcases hmk with hmk | hmk
      · exact hmk.elim
      · cases hmk
        rfl
    have hslot := b.slotAt_trim_range (dataOid u s i) (e := e)
      (fun hf o ho => h.entries_le_of_full hv hs hmem hf ho)
    -- a position without an object stays unwritten
    rcases hkept.ok.positionSlot_cases q with hun | ⟨s', i', hmap, heq⟩
    · left
      have hle := hkept.grows.positionSlot_le h hkept.ok q
      rw [hun] at hle ⊢
      exact hle.eq_unwritten.symm
    · rw [hviews rfl] at hmap
      rw [heq, h.positionSlot_eq hmap]
      exact hslot (dataOid u s' i') q
  | _ => exact Or.inl (hframe id)

/-- A step of a `trimTo` erases positions. -/
theorem Moves.erased {pc : Pc} (hI : Inv u name w) (hc : c ∈ w.clients) (ht : t ∈ c.threads)
    {p : Nat} {opc : OpPc} (hpc : t.pc = .op (.trimTo p) opc)
    (hmv : Moves name c t.pc w.backend sh pc b') :
    Slots.Erased p (positionSlot u w.backend) (positionSlot u b') := by
  cases hmv with
  | access => exact fun q => Or.inl rfl
  | call call next hm =>
    have hcok := hI.clients c hc
    have hok := hcok.threads t ht
    apply (Pc.move_callOk hI.log hcok.shared hok hm).erased hI.log
    rcases Pc.move_makes hok _ _ _ hm with hman | ⟨r, opc', hpc', hmk⟩
    · exact Or.inl hman
    · rw [hpc] at hpc'
      cases hpc'
      exact Or.inr hmk

/-! ## One step -/

/-- A record stays. -/
theorem Good.returned_persists (hG : Good u name w) (h : w.step a = some w') (hx : w.Returned x) :
    w'.Returned x := by
  obtain ⟨t, ht, hpc, hinv, hdone⟩ := hx
  obtain ⟨t', ht', -⟩ := hG.toInv.thread_persists h ht
  suffices heq : t' = t from ⟨t', ht', heq ▸ hpc, heq ▸ hinv, heq ▸ hdone⟩
  -- the thread does not move any more
  cases hG.toInv.thread_step h ht' with
  | same hsame => exact Option.some.inj (hsame.symm.trans ht)
  | fresh hnone =>
    rw [hnone] at ht
    cases ht
  | closing t₁ hsame hop =>
    rw [ht] at hsame
    cases hsame
    rw [hpc] at hop
    cases hop
  | ran c t₁ sh pc ha hc htc heq hk hstep hmv =>
    rw [World.thread?_of_client hc, htc] at ht
    cases ht
    rw [hpc] at hmv
    exact absurd Pc.move_done hmv.ne_none

/-- **An operation takes effect** in the step in which it returns. -/
theorem ReturnStep.takes (hG : Good u name w) (h : w.step a = some w')
    (hr : ReturnStep u name w w' a x) :
    Slots.Step (positionSlot u w.backend) x.request x.result (positionSlot u w'.backend) := by
  obtain ⟨cid, tid, r, result, invoked, done⟩ := x
  obtain ⟨c, t, opc, hc, ht, hpc, -, -, sh, hmv⟩ := hr.running
  have hmem := List.mem_of_getElem? hc
  have htmem := List.mem_of_getElem? ht
  have hcok := hG.clients c hmem
  have hstep := hmv.safe (Pc.move_safe hG.log hcok.shared (hcok.threads t htmem))
  have hop : OpStep u w.backend c.shared r w'.backend (.done result) := by
    obtain ⟨-, -, -, hop⟩ := hstep.op hmv
    exact hop
  have hframe : ∀ q, ¬ r.Touches q → positionSlot u w'.backend q = positionSlot u w.backend q :=
    fun q hq => hr.kept.positionSlot_eq hG.log (hop.frame q hq).slot
  have hans : Answer u w.backend w'.backend result r := hr.answer
  have hslots : r.gentle = true → (∀ q, positionSlot u w'.backend q = positionSlot u w.backend q) ∨
      ∃ data p, r = .append data ∧ result = .ok (.position p) ∧
        ∀ q, q ≠ p → positionSlot u w'.backend q = positionSlot u w.backend q := by
    intro hgentle
    have hthread : ∀ r' opc', t.pc = .op r' opc' → r'.gentle = true := by
      intro r' opc' hpc'
      rw [hpc] at hpc'
      cases hpc'
      exact hgentle
    rcases hmv.slots hG.toInv hthread hmem htmem hstep with hsame | ⟨data, p, heq, hne⟩
    · exact Or.inl hsame
    · cases heq
      exact Or.inr ⟨data, p, rfl, rfl, hne⟩
  have hsame : r.gentle = true → (∀ data p, r = .append data → result ≠ .ok (.position p)) →
      positionSlot u w'.backend = positionSlot u w.backend := by
    intro hgentle hno
    rcases hslots hgentle with hsame | ⟨data, p, hreq, hres, -⟩
    · exact funext hsame
    · exact absurd hres (hno data p hreq)
  have hupdate : ∀ p slot, (∀ q, q ≠ p → ¬ r.Touches q) → positionSlot u w'.backend p = slot →
      positionSlot u w'.backend = Function.update (positionSlot u w.backend) p slot := by
    intro p slot htouch hp
    funext q
    by_cases hq : q = p
    · rw [hq, Function.update_self, hp]
    · rw [Function.update_of_ne hq, hframe q (htouch q hq)]
  cases r with
  | append data =>
    rcases hans with rfl | ⟨p, rfl, hunwritten, hwritten⟩
    · rw [hsame rfl fun _ _ _ => by simp]
      exact .unsequenced data
    · rcases hslots rfl with hall | ⟨data', p', -, hres, hne⟩
      · rw [hall, hunwritten] at hwritten
        cases hwritten
      · cases hres
        suffices heq : positionSlot u w'.backend =
            Function.update (positionSlot u w.backend) p (.written data) by
          rw [heq]
          exact .append data p hunwritten
        funext q
        by_cases hq : q = p
        · rw [hq, Function.update_self, hwritten]
        · rw [Function.update_of_ne hq, hne q hq]
  | read p =>
    rw [hsame rfl fun _ _ heq => by cases heq]
    have hresult : result = readAnswer (positionSlot u w.backend p) := hans
    rw [hresult]
    exact .read p
  | fill p =>
    have hresult : result = fillAnswer (positionSlot u w.backend p) := hans
    have hfilled : positionSlot u w'.backend p = (positionSlot u w.backend p).filled := by
      cases hslot : positionSlot u w.backend p with
      | written data =>
        -- a fill does not trim
        refine hG.toInv.data_kept h ?_ hslot
        rintro ⟨cid', tid', t', r', pc', ha, ht', hpc', htrims⟩
        rw [hr.action] at ha
        cases ha
        rw [World.thread?_of_client hc, ht] at ht'
        cases ht'
        rw [hpc] at hpc'
        cases hpc'
        exact htrims
      | unwritten =>
        rw [hslot] at hresult
        subst hresult
        exact hop.ok
      | invalid =>
        rw [hslot] at hresult
        subst hresult
        exact hop.ok
    rw [hupdate p _ (fun q hq => hq) hfilled, hresult]
    exact .fill p
  | trim p =>
    obtain rfl : result = .ok .unit := hans
    rw [hupdate p .invalid (fun q hq => hq) hop.ok]
    exact .trim p
  | trimTo p =>
    obtain rfl : result = .ok .unit := hans
    have hdone : ∀ q ≤ p, positionSlot u w'.backend q = .invalid := hop.ok
    suffices heq : positionSlot u w'.backend =
        fun q => if q ≤ p then .invalid else positionSlot u w.backend q by
      rw [heq]
      exact .trimTo p
    funext q
    split
    · next hq => exact hdone q hq
    · next hq => exact hframe q hq
  | checkTail =>
    rw [hsame rfl fun _ _ heq => by cases heq]
    rcases hans with rfl | ⟨p, rfl⟩
    · exact .untailed
    · exact .checkTail p

/-- What a step of the system does to the array. -/
inductive AtomicStep (u : Uuid) (w w' : World) : Prop where
  | silent : positionSlot u w'.backend = positionSlot u w.backend →
      (∀ x, w'.Returned x → w.Returned x) → AtomicStep u w w'
  | erases (cid tid p : Nat) : w'.Trimming cid tid p w.clock →
      Slots.Erased p (positionSlot u w.backend) (positionSlot u w'.backend) →
      (∀ x, w'.Returned x → w.Returned x) → AtomicStep u w w'
  | takes (x : OpRecord) : w'.Returned x → x.done = w.clock →
      Slots.Step (positionSlot u w.backend) x.request x.result (positionSlot u w'.backend) →
      (∀ y, w'.Returned y → w.Returned y ∨ y = x) → AtomicStep u w w'

/-- A step in which no operation returns. -/
theorem Good.erases_step (hG : Good u name w) (h : w.step a = some w')
    (hnone : ∀ x, w'.Returned x → w.Returned x) : AtomicStep u w w' := by
  rcases hG.toInv.backend_step h with hb | ⟨cid, tid, -, -, -, -, -, rfl, -⟩
  · exact .silent (congrArg (positionSlot u) hb) hnone
  · obtain ⟨c, t, hc, -, ht, rfl | ⟨sh, pc, hst, hk, -, hstep, hmv⟩⟩ := hG.toInv.run_cases h
    · exact .silent rfl hnone
    · have hmem := List.mem_of_getElem? hc
      have htmem := List.mem_of_getElem? ht
      have hthread := (World.thread?_set_self hst.clients (lt_of_getElem?_eq_some hc)).trans
        (List.getElem?_set_self (lt_of_getElem?_eq_some ht))
      by_cases hop : ∃ r opc', pc = .op r opc'
      · obtain ⟨r, opc', rfl⟩ := hop
        obtain ⟨opc, htpc, hrunning, hop⟩ := hstep.op hmv
        have hflight : ∀ result, opc' ≠ .done result := by
          rintro result rfl
          -- the operation would have returned before
          obtain ⟨t₀, ht₀, hpc₀, -⟩ := hnone ⟨cid, tid, r, result, t.invokedAt, w.clock⟩
            ⟨_, hthread, rfl, rfl, rfl⟩
          rw [World.thread?_of_client hc, ht] at ht₀
          cases ht₀
          rw [htpc] at hpc₀
          cases hpc₀
          exact hrunning result rfl
        by_cases htrim : ∃ p, r = .trimTo p
        · obtain ⟨p, rfl⟩ := htrim
          refine .erases cid tid p ⟨_, opc', hthread, rfl, ?_, ?_⟩ ?_ hnone
          · exact (hG.timed cid tid t ((World.thread?_of_client hc).trans ht)).invoked
          · intro done hdone
            cases opc' with
            | done result => exact absurd rfl (hflight result)
            | _ => cases hdone
          · exact hmv.erased hG.toInv hmem htmem htpc
        · refine .silent (funext fun q => ?_) hnone
          have hsame := hop.still (fun p hr => htrim ⟨p, hr⟩) hflight
          exact hk.positionSlot_eq hG.log (hsame q).slot
      · refine .silent (funext fun q => ?_) hnone
        have hno : ∀ r opc, t.pc = .op r opc → r.gentle = true := by
          intro r opc htpc
          rw [htpc] at hstep
          obtain ⟨opc', heq, -⟩ := hstep
          exact absurd ⟨r, opc', heq⟩ hop
        rcases hmv.slots hG.toInv hno hmem htmem hstep with hsame | ⟨data, p, heq, -⟩
        · exact hsame q
        · exact absurd ⟨_, _, heq⟩ hop

/-- **One step**: nothing happens to the array, a `trimTo` erases positions, or an operation takes
    effect. -/
theorem Good.atomic_step (hG : Good u name w) (h : w.step a = some w') : AtomicStep u w w' := by
  by_cases hnew : ∃ x, w'.Returned x ∧ ¬ w.Returned x
  · obtain ⟨x, hx, hnot⟩ := hnew
    have hr : ReturnStep u name w w' a x := (hG.return_step h hx).resolve_left hnot
    refine .takes x hx hr.now (hr.takes hG h) ?_
    intro y hy
    rcases hG.return_step h hy with hold | hr'
    · exact Or.inl hold
    · -- only one thread runs
      obtain ⟨hcid, htid⟩ := Action.run.inj (hr'.action.symm.trans hr.action)
      exact Or.inr (hy.unique hx hcid htid)
  · apply hG.erases_step h
    intro x hx
    by_contra hnot
    exact hnew ⟨x, hx, hnot⟩

/-- A `trimTo` stays what it was. -/
theorem Good.trimming_persists (hG : Good u name w) (h : w.step a = some w') {p time : Nat}
    (ht : w.Trimming cid tid p time) (htime : time < w.clock) : w'.Trimming cid tid p time := by
  obtain ⟨t, pc, hthread, hpc, hinv, hdone⟩ := ht
  obtain ⟨t', ht', hinv', hop⟩ := hG.toInv.thread_persists h hthread
  obtain ⟨pc', hpc'⟩ := hop _ _ hpc
  refine ⟨t', pc', ht', hpc', hinv'.symm ▸ hinv, ?_⟩
  intro done hd
  -- the thread has returned before, or returns now
  cases hG.toInv.thread_step h ht' with
  | same hsame =>
    rw [hthread] at hsame
    cases hsame
    exact hdone done hd
  | fresh hnone =>
    rw [hnone] at hthread
    cases hthread
  | closing t₁ hsame hop' heq =>
    subst heq
    cases hpc'
  | ran c t₁ sh pc₁ ha hc ht₁ heq hk hstep hmv =>
    subst heq
    unfold Thread.goto at hd
    simp only at hd
    split at hd
    · cases hd
      exact htime
    · cases hd

/-! ## Runs -/

/-- The points at which the array was looked at and changed, oldest first. -/
structure Linearized (u : Uuid) (w : World) (points : List Point) : Prop where
  legal : Lib.Legal Point.Step (fun _ => .unwritten) points (positionSlot u w.backend)
  stamped : Lib.Stamped Point.time points w.clock
  takes : ∀ x, .takes x ∈ points ↔ w.Returned x
  within : ∀ x, w.Returned x → x.invoked < x.done
  erases : ∀ cid tid p time, .erases cid tid p time ∈ points → w.Trimming cid tid p time

/-- Every step adds at most one point. -/
theorem Linearized.step {points : List Point} (hl : Linearized u w points) (hG : Good u name w)
    (h : w.step a = some w') : ∃ points, Linearized u w' points := by
  have hwithin : ∀ x, w'.Returned x → x.invoked < x.done :=
    fun x hx => ((hG.step h).returned_lt hx).1
  have hclock := World.clock_step h
  -- the erasures of before were made by a `trimTo` under way at their times
  have hold : ∀ cid tid p time, .erases cid tid p time ∈ points → w'.Trimming cid tid p time := by
    intro cid tid p time hmem
    exact hG.trimming_persists h (hl.erases cid tid p time hmem) (hl.stamped.past _ hmem)
  -- a step that nobody sees, an erasure of a running `trimTo`, or a point of an operation
  cases hG.atomic_step h with
  | silent hsame hnone =>
    refine ⟨points, hsame ▸ hl.legal, hclock ▸ hl.stamped.later, ?_, hwithin, hold⟩
    intro x
    rw [hl.takes x]
    exact ⟨hG.returned_persists h, hnone x⟩
  | erases cid tid p htrim herased hnone =>
    refine ⟨points ++ [.erases cid tid p w.clock], hl.legal.snoc (.erases _ _ _ _ herased),
      hclock ▸ hl.stamped.snoc rfl, ?_, hwithin, ?_⟩
    · intro x
      rw [List.mem_append, hl.takes x]
      constructor
      · rintro (hx | hx)
        · exact hG.returned_persists h hx
        · cases List.mem_singleton.mp hx
      · exact fun hx => Or.inl (hnone x hx)
    · intro cid' tid' p' time hmem
      rcases List.mem_append.mp hmem with hmem | hmem
      · exact hold cid' tid' p' time hmem
      · cases List.mem_singleton.mp hmem
        exact htrim
  | takes x hx hnow hstep hnew =>
    refine ⟨points ++ [.takes x], hl.legal.snoc (.takes hstep), hclock ▸ hl.stamped.snoc hnow, ?_,
      hwithin, ?_⟩
    · intro y
      rw [List.mem_append, hl.takes y]
      constructor
      · rintro (hy | hy)
        · exact hG.returned_persists h hy
        · cases List.mem_singleton.mp hy
          exact hx
      · -- an operation that has returned now is the one that takes its point
        intro hy
        rcases hnew y hy with hy | rfl
        · exact Or.inl hy
        · exact Or.inr (List.mem_singleton.mpr rfl)
    · intro cid' tid' p' time hmem
      rcases List.mem_append.mp hmem with hmem | hmem
      · exact hold cid' tid' p' time hmem
      · cases List.mem_singleton.mp hmem

theorem Linearized.init {options : Options} {host : Host}
    (h : World.init name u options host = some w) : Linearized u w [] := by
  refine ⟨?_, .nil _ _, ?_, ?_, ?_⟩
  · rw [show positionSlot u w.backend = fun _ => .unwritten from funext (positionSlot_init h)]
    exact .nil
  · intro x
    exact ⟨fun hx => absurd hx List.not_mem_nil, fun hx => absurd hx (not_returned_init h)⟩
  · exact fun x hx => absurd hx (not_returned_init h)
  · exact fun _ _ _ _ hmem => absurd hmem List.not_mem_nil

/-- **Run lemma.** -/
theorem Linearized.run {points : List Point} (hl : Linearized u w₀ points) (hG : Good u name w₀)
    (h : Lib.Reaches World.step w₀ w) : ∃ points, Linearized u w points := by
  refine (h.invariant (I := fun w => Good u name w ∧ ∃ points, Linearized u w points) ?_
    ⟨hG, points, hl⟩).2
  rintro v a v' ⟨hG, points, hl⟩ - hs
  exact ⟨hG.step hs, hl.step hG hs⟩

/-- **Linearizability**: in every run, the operations that have returned took effect one at a time
    between their invocation and their return, with the answers of the array. -/
theorem linearizable {options : Options} {host : Host}
    (h₀ : World.init name u options host = some w₀) (h : Lib.Reaches World.step w₀ w) :
    ∃ points, Linearized u w points := (Linearized.init h₀).run (Good.init h₀) h

end

/-- A `trimTo` erases a position that has been appended, and a read finds it erased. -/
theorem linearizable_sample :
    ∃ w points, Sample.world Sample.trimmed = some w ∧ Linearized Sample.uuid w points ∧
      .takes ⟨0, 5, .trimTo 0, .ok .unit, 24, 38⟩ ∈ points ∧
      .takes ⟨0, 6, .read 0, .error .enodata, 39, 42⟩ ∈ points := by
  have hrun : (Sample.world Sample.trimmed).bind (fun w =>
      (w.thread? 0 5).bind fun t => (w.thread? 0 6).map fun t' => (t, t')) =
      some (⟨.op (.trimTo 0) (.done (.ok .unit)), 24, some 38, []⟩,
        ⟨.op (.read 0) (.done (.error .enodata)), 39, some 42, []⟩) := by decide +kernel
  obtain ⟨w, hw, ht⟩ := Option.bind_eq_some_iff.mp hrun
  obtain ⟨t, ht, ht'⟩ := Option.bind_eq_some_iff.mp ht
  obtain ⟨t', ht', heq⟩ := Option.map_eq_some_iff.mp ht'
  cases heq
  obtain ⟨w₀, h₀, h⟩ := Sample.reaches hw
  obtain ⟨points, hl⟩ := linearizable h₀ h
  exact ⟨w, points, hw, hl, (hl.takes _).mpr ⟨_, ht, rfl, rfl, rfl⟩,
    (hl.takes _).mpr ⟨_, ht', rfl, rfl, rfl⟩⟩

end ZLog
