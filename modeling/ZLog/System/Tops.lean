import ZLog.System.Opens
import ZLog.System.Unwrapped

/-!
# Seeds without fills and trims

`MaxPos` answers with the maximum of the entries and the trim limit of an object.  As long as
nobody fills or trims, objects have no trim limit and their maximum is one of their entries, so a
client that becomes the sequencer starts right behind a written position.

## Main results

- `Inv.accepts_top`: an accepted seed is right behind a position in use.
- `Topped.step`: objects stay plain.
-/

namespace ZLog

/-- An object that nobody filled or trimmed. -/
structure LogObject.Plain (o : LogObject) : Prop where
  limit : o.trimLimit = none
  top : o.entries = ∅ ∧ o.maxpos = 0 ∨ o.maxpos ∈ o.entries

/-- Fills and trims. -/
def Call.Invalidates : {α : Type} → Call Fbs.View α → Prop
  | _, .fill .. => True
  | _, .trim .. => True
  | _, _ => False

/-- The position to which a call raises a trim limit. -/
def Call.raises? : {α : Type} → Call Fbs.View α → Option Nat
  | _, .trim _ _ position true _ => some position
  | _, _ => none

/-- The request neither fills nor trims. -/
def Request.gentle : Request → Bool
  | .append _ => true
  | .read _ => true
  | .checkTail => true
  | _ => false

/-- All objects of the log are plain. -/
def PlainObjects (u : Uuid) (b : Store) : Prop := ∀ s i o, objectAt u b s i = some o → o.Plain

/-- What `MaxPos` answers is a position in use. -/
def TopsUsed (u : Uuid) (b : Store) : Prop :=
  ∀ s i o x, objectAt u b s i = some o → o.maxPos = some x → positionSlot u b x ≠ .unwritten

section

variable {u : Uuid} {name : String} {b b' : Store} {sh : Shared}

/-! ## Objects -/

theorem LogObject.Plain.maxPos {o : LogObject} (h : o.Plain) {x : Nat} (hx : o.maxPos = some x) :
    x ∈ o.entries := by
  unfold LogObject.maxPos at hx
  rw [h.limit] at hx
  split at hx
  · cases hx
  · next hne =>
    cases hx
    rcases h.top with ⟨hempty, -⟩ | htop
    · rw [hempty] at hne
      exact absurd rfl hne
    · exact htop

theorem LogObject.Plain.new (e : Nat) : ({ epoch := e } : LogObject).Plain :=
  ⟨rfl, Or.inl ⟨rfl, rfl⟩⟩

/-- What a call does to an object: it sets the epoch, stores an entry, or raises the trim limit to
    `limit`. -/
inductive LogObject.Update (limit : Option Nat) (o : LogObject) : LogObject → Prop where
  | same : Update limit o o
  | epoch (e : Nat) : Update limit o { o with epoch := e }
  | entry (p : Nat) (entry : LogEntry) : o.belowTrimLimit p = false →
      Update limit o { o with entries := o.entries.insert p entry, maxpos := max o.maxpos p }
  | range (p : Nat) (full : Bool) : limit = some p → (full = true → ∀ k ∈ o.entries, k ≤ p) →
      Update limit o (o.trim p true full)

/-- A single trim stores an entry, unless the trim limit covers its position. -/
theorem LogObject.Update.trim (limit : Option Nat) (o : LogObject) (p : Nat) :
    o.Update limit (o.trim p false false) := by
  unfold LogObject.trim
  simp only [Bool.false_eq_true, if_false]
  split
  · exact .same
  · next hbelow =>
    have hbelow := Bool.not_eq_true _ ▸ hbelow
    unfold LogObject.trimEntry
    split <;> exact .entry p _ hbelow

/-- An object after a call is new, or was updated. -/
theorem CallOk.update (hl : LogOk u name b) {α : Type} {call : Call Fbs.View α}
    (hc : CallOk u name b call) {s i : Nat} {o' : LogObject}
    (ho : objectAt u (b.exec call).2 s i = some o') :
    (∃ e, o' = { epoch := e }) ∨ ∃ o, objectAt u b s i = some o ∧ o.Update call.raises? o' := by
  have hsame : ∀ {b' : Store}, (∀ oid, b'.logAt oid = b.logAt oid) →
      objectAt u b' s i = some o' →
      ∃ o, objectAt u b s i = some o ∧ o.Update call.raises? o' := by
    intro b' heq ho
    exact ⟨o', (heq _).symm.trans ho, .same⟩
  -- a call of an object leaves the other objects alone
  have hset : ∀ {t k : Nat} {o n : LogObject}, objectAt u b t k = some o → o.Update call.raises? n →
      objectAt u (b.setLog (dataOid u t k) n) s i = some o' →
      ∃ o, objectAt u b s i = some o ∧ o.Update call.raises? o' := by
    intro t k o n hold hn ho
    rw [objectAt_setLog] at ho
    split at ho
    · next heq =>
      cases ho
      exact ⟨o, by rw [heq.1, heq.2, hold], hn⟩
    · exact ⟨o', ho, .same⟩
  cases hc with
  | openLog => exact Or.inr (hsame (fun _ => rfl) ho)
  | uniqueId =>
    have hexec : (b.exec (.uniqueId u.hoid)).2 = (b.uniqueId u.hoid).2 := rfl
    unfold RAMBackend.uniqueId at hexec
    rw [if_neg u.hoid_ne_empty] at hexec
    rw [hexec] at ho
    exact Or.inr (hsame (fun _ => rfl) ho)
  | readViews => exact Or.inr (hsame (fun _ => rfl) ho)
  | proposeView hv hn => exact Or.inr (hsame (hl.logAt_proposeView hv hn) ho)
  | read => exact Or.inr (hsame (fun _ => rfl) ho)
  | @write e p t k v last data hv hm =>
    right
    have hexec : (b.exec (.write (dataOid u t k) data e p)).2 = (b.write (dataOid u t k) data e p).2 :=
      rfl
    rw [hexec] at ho
    rcases b.write_cases (dataOid u t k) data e p with ⟨err, -, hw⟩ | ⟨o, -, -, hw⟩ |
      ⟨o, hio, hu, hw⟩ <;> rw [hw] at ho
    · exact hsame (fun _ => rfl) ho
    · exact hsame (fun _ => rfl) ho
    · refine hset (RAMBackend.checkIo_eq_ok.mp hio).2.2.1 ?_ ho
      rw [LogObject.write_of_unwritten hu]
      exact .entry p _ (LogObject.slot_eq_unwritten_iff.mp hu).1
  | @fill e p t k v last hv hm =>
    right
    have hexec : (b.exec (.fill (dataOid u t k) e p)).2 = (b.fill (dataOid u t k) e p).2 := rfl
    rw [hexec] at ho
    rcases b.fill_cases (dataOid u t k) e p with ⟨err, -, hf⟩ | ⟨o, d, -, -, hf⟩ | ⟨o, hio, -, hf⟩ |
      ⟨o, hio, hu, hf⟩ <;> rw [hf] at ho
    · exact hsame (fun _ => rfl) ho
    · exact hsame (fun _ => rfl) ho
    · exact hset (RAMBackend.checkIo_eq_ok.mp hio).2.2.1 .same ho
    · refine hset (RAMBackend.checkIo_eq_ok.mp hio).2.2.1 ?_ ho
      rw [LogObject.fill_of_unwritten hu]
      exact .entry p _ (LogObject.slot_eq_unwritten_iff.mp hu).1
  | @trim e p t k v last hv hm =>
    right
    have hexec : (b.exec (.trim (dataOid u t k) e p false false)).2 =
        (b.trim (dataOid u t k) e p false false).2 := rfl
    rw [hexec] at ho
    rcases b.trim_cases (dataOid u t k) e p false false with ⟨-, -, ht⟩ | ⟨err, -, ht⟩ |
      ⟨o, hio, -, ht⟩ <;> rw [ht] at ho
    · exact hsame (fun _ => rfl) ho
    · exact hsame (fun _ => rfl) ho
    · exact hset (RAMBackend.checkIo_eq_ok.mp hio).2.2.1 (.trim _ o p) ho
  | @trimRange e p t k v stripe full hv hst hmin hmem =>
    right
    have hexec : (b.exec (.trim (dataOid u t k) e p true full)).2 =
        (b.trim (dataOid u t k) e p true full).2 := rfl
    rw [hexec] at ho
    rcases b.trim_cases (dataOid u t k) e p true full with ⟨-, -, ht⟩ | ⟨err, -, ht⟩ |
      ⟨o, hio, -, ht⟩ <;> rw [ht] at ho
    · exact hsame (fun _ => rfl) ho
    · exact hsame (fun _ => rfl) ho
    · have hold := (RAMBackend.checkIo_eq_ok.mp hio).2.2.1
      exact hset hold (.range p full rfl fun hf => hl.entries_le_of_full hv hst hmem hf hold) ho
  | @«seal» t k e h0 he =>
    have hexec : (b.exec (.seal (dataOid u t k) e)).2 = (b.seal (dataOid u t k) e).2 := rfl
    rw [hexec] at ho
    rcases b.seal_cases (dataOid u t k) e with ⟨-, hs⟩ | ⟨-, -, -, hs⟩ | ⟨o, -, -, hs⟩ |
      ⟨o, hold, -, -, hs⟩ | ⟨-, -, hs⟩ <;> rw [hs] at ho
    · exact Or.inr (hsame (fun _ => rfl) ho)
    · rw [objectAt_setLog] at ho
      split at ho
      · cases ho
        exact Or.inl ⟨e, rfl⟩
      · exact Or.inr ⟨o', ho, .same⟩
    · exact Or.inr (hsame (fun _ => rfl) ho)
    · exact Or.inr (hset hold (.epoch e) ho)
    · exact Or.inr (hsame (fun _ => rfl) ho)
  | maxPos => exact Or.inr (hsame (fun _ => rfl) ho)

theorem LogObject.Plain.update {o o' : LogObject} (h : o.Plain) (hu : o.Update none o') :
    o'.Plain := by
  cases hu with
  | same => exact h
  | epoch e => exact ⟨h.limit, h.top⟩
  | entry p e hbelow =>
    refine ⟨h.limit, Or.inr ?_⟩
    show max o.maxpos p ∈ o.entries.insert p e
    rw [AList.mem_insert]
    rcases h.top with ⟨-, h0⟩ | htop
    · exact Or.inl (by omega)
    · rcases Nat.le_total p o.maxpos with hle | hle
      · exact Or.inr (by rw [Nat.max_eq_left hle]; exact htop)
      · exact Or.inl (Nat.max_eq_right hle)
  | range p full hlimit => cases hlimit

/-- Calls that mark nothing invalid keep the objects plain. -/
theorem CallOk.plain (hl : LogOk u name b) {α : Type} {call : Call Fbs.View α}
    (hc : CallOk u name b call) (hno : ¬ call.Invalidates) (h : PlainObjects u b) :
    PlainObjects u (b.exec call).2 := by
  intro s i o' ho'
  rcases hc.update hl ho' with ⟨e, rfl⟩ | ⟨o, ho, hu⟩
  · exact .new e
  · have hnone : call.raises? = none := by
      cases call with
      | trim => exact absurd trivial hno
      | _ => rfl
    rw [hnone] at hu
    exact (h s i o ho).update hu

/-- The position of an entry is in use. -/
theorem LogOk.entry_used (h : LogOk u name b) {s i x : Nat} {o : LogObject}
    (ho : objectAt u b s i = some o) (hx : x ∈ o.entries) : positionSlot u b x ≠ .unwritten := by
  rw [h.positionSlot_eq ((h.object s i o ho).mapped x hx), RAMBackend.slotAt_of_logAt ho]
  exact LogObject.slot_ne_unwritten_of_mem hx

/-- Plain objects answer with one of their entries. -/
theorem LogOk.topsUsed (h : LogOk u name b) (hp : PlainObjects u b) : TopsUsed u b :=
  fun s i o _ ho hx => h.entry_used ho ((hp s i o ho).maxPos hx)

/-! ## Seeds -/

/-- An accepted seed is right behind a position in use, when the objects answer with such. -/
theorem Inv.accepts_top {w w' : World} (hI : Inv u name w) (htops : TopsUsed u w.backend)
    (hroom : HasRoom u w.backend) {e seed : Nat} (h : Accepts u w w' e seed) {x : Nat}
    (hx : seed = x + 1) : positionSlot u w.backend x ≠ .unwritten := by
  obtain ⟨s, i, o, ho, hmax⟩ := (hI.accepts_unwrapped h hroom).above x hx
  exact htops s i o x ho hmax

/-- Objects that answer with positions in use have room, while no such position is the last one. -/
theorem TopsUsed.hasRoom (htops : TopsUsed u b)
    (hused : ∀ x, positionSlot u b x ≠ .unwritten → x + 1 < 2 ^ 64) : HasRoom u b :=
  fun s i o x ho hx => hused x (htops s i o x ho hx)

/-! ## Runs -/

variable {w w' : World} {a : Action} {cid : Nat}

/-- Nobody asks for a fill or a trim. -/
def Action.Gentle : Action → Prop
  | .invoke _ r => r.gentle = true
  | _ => True

/-- A gentle request makes no call that marks positions. -/
theorem Request.Makes.gentle {r : Request} {α : Type} {call : Call Fbs.View α} (h : r.Makes call)
    (hr : r.gentle = true) : ¬ call.Invalidates := by
  intro hc
  cases call with
  | fill oid epoch position =>
    obtain rfl : r = .fill position := h
    cases hr
  | trim oid epoch position trimLimit trimFull =>
    cases trimLimit with
    | false =>
      obtain rfl : r = .trim position := h
      cases hr
    | true =>
      obtain rfl : r = .trimTo position := h
      cases hr
  | _ => exact hc

theorem Call.Manages.gentle {α : Type} {call : Call Fbs.View α} (h : call.Manages) :
    ¬ call.Invalidates := by
  intro hc
  cases call with
  | fill => exact h
  | trim => exact h
  | _ => exact hc

/-- Nobody has filled or trimmed anything. -/
structure Topped (u : Uuid) (w : World) : Prop where
  gentle : ∀ c ∈ w.clients, ∀ t ∈ c.threads, ∀ r pc, t.pc = .op r pc → r.gentle = true
  objects : PlainObjects u w.backend

/-- **Step**: without fills and trims, the objects stay plain. -/
theorem Topped.step (hT : Topped u w) (hI : Inv u name w) (hok : a.Gentle)
    (h : w.step a = some w') : Topped u w' := by
  refine ⟨fun c' hc' => ?_, ?_⟩
  · obtain ⟨cid, hcid⟩ := List.mem_iff_getElem?.mp hc'
    refine (hI.client_step h hcid).threads (fun _ pc => ∀ r opc, pc = .op r opc → r.gentle = true)
      (fun _ pc => ∀ r opc, pc = .op r opc → r.gentle = true)
      (fun c hc => hT.gentle c (List.mem_of_getElem? hc)) ?_ ?_ (fun r opc heq => by cases heq)
      (fun _ _ _ hold => hold) ?_
    · intro t ht r opc hpc
      simp only [Client.newThreads, List.mem_cons, List.not_mem_nil, or_false] at ht
      rcases ht with rfl | rfl | rfl | rfl <;> cases hpc
    · rintro r rfl r' opc heq
      cases heq
      exact hok
    · intro c t sh pc hc ht hstep hmv hold r opc heq
      subst heq
      obtain ⟨opc₀, htpc, -⟩ := hstep.op hmv
      exact hold r opc₀ htpc
  · rcases hI.backend_step h with heq | ⟨cid, tid, c, t, α, call, next, -, hc, ht, hm, hcall, hpc, heq⟩
    · rw [heq]
      exact hT.objects
    · rw [heq]
      refine hcall.plain hI.log ?_ hT.objects
      rcases Pc.move_makes hpc _ _ _ hm with hman | ⟨r, opc, hop, hmk⟩
      · exact hman.gentle
      · exact hmk.gentle
          (hT.gentle c (List.mem_of_getElem? hc) t (List.mem_of_getElem? ht) r opc hop)

theorem Topped.init {options : Options} {host : Host}
    (h : World.init name u options host = some w) : Topped u w := by
  refine ⟨fun c hc t ht r pc hpc => ?_, fun s i o ho => ?_⟩
  · obtain ⟨cid, hcid⟩ := List.mem_iff_getElem?.mp hc
    obtain ⟨tid, htid⟩ := List.mem_iff_getElem?.mp ht
    exact absurd hpc (not_op_init h (World.thread?_eq_some.mpr ⟨c, hcid, htid⟩))
  · unfold objectAt at ho
    rw [logAt_init h] at ho
    cases ho

end

end ZLog
