import ZLog.System.Sessions
import ZLog.System.SharedLog

/-!
# The shared log in the store

How the stored log, and the counter of the sequencer, stand to the abstract log, also in the middle
of an operation: a `trimTo` has made some of its positions invalid and has raised the trim limits of
some objects; an append has drawn positions that turned out to be in use, and may hold one.

## Main results

- `Midway.running`: a step in which the operation goes on.
- `Midway.returns`: when it returns, it has done what it does to the abstract log.
- `Midway.topsUsed`: while no operation is under way, objects answer with positions in use.
-/

namespace ZLog

/-! ## Greatest positions -/

/-- The greatest position that an object remembers is that of an entry, or it has been trimmed. -/
def LogObject.Backed (o : LogObject) : Prop :=
  (o.entries = ∅ ∧ o.maxpos = 0) ∨ o.maxpos ∈ o.entries ∨ o.belowTrimLimit o.maxpos = true

namespace LogObject

variable {o o' : LogObject} {p x : Nat} {limit : Option Nat}

/-- A new object has no entries, and `maxpos` 0. -/
theorem Backed.new (e : Nat) : ({ epoch := e } : LogObject).Backed := Or.inl ⟨rfl, rfl⟩

/-- Trimming a range keeps `maxpos` backed: what a full trim deletes is under its limit. -/
theorem Backed.range (h : o.Backed) {full : Bool} (hfull : full = true → ∀ k ∈ o.entries, k ≤ p) :
    (o.trim p true full).Backed := by
  cases full with
  | false =>
    -- the entries stay, so whatever backs `maxpos` still does
    rw [trim_range]
    rcases h with ⟨hempty, h0⟩ | hmem | hbelow
    · exact Or.inl ⟨(entries_raiseTrimLimit o p).trans hempty,
        (maxpos_raiseTrimLimit o p).trans h0⟩
    · right; left
      rwa [maxpos_raiseTrimLimit, entries_raiseTrimLimit]
    · right; right
      rw [maxpos_raiseTrimLimit, belowTrimLimit_raiseTrimLimit, hbelow, Bool.or_true]
  -- the entries go: one that has backed `maxpos` is below the new limit
  | true =>
    have hmax : (o.trim p true true).maxpos = o.maxpos := maxpos_raiseTrimLimit o p
    rcases h with ⟨-, h0⟩ | hmem | hbelow
    · exact Or.inl ⟨rfl, hmax.trans h0⟩
    · right; right
      rw [hmax]
      refine (belowTrimLimit_raiseTrimLimit o p o.maxpos).trans ?_
      rw [decide_eq_true (hfull rfl _ hmem), Bool.true_or]
    · right; right
      rw [hmax]
      exact belowTrimLimit_trim hbelow

/-- Every change of an object by the log keeps `maxpos` backed. -/
theorem Backed.update (h : o.Backed) (hu : o.Update limit o') : o'.Backed := by
  cases hu with
  | same => exact h
  | epoch e => exact h
  | range p full hlimit hfull => exact h.range hfull
  | entry p e hbelow =>
    -- the new entry is the greatest, or what has backed `maxpos` still does
    rcases Nat.le_total o.maxpos p with hle | hle
    · right; left
      show max o.maxpos p ∈ o.entries.insert p e
      rw [Nat.max_eq_right hle]
      exact (AList.mem_insert _).mpr (Or.inl rfl)
    · have hmax : max o.maxpos p = o.maxpos := Nat.max_eq_left hle
      rcases h with ⟨-, h0⟩ | hmem | hbelow'
      · right; left
        show max o.maxpos p ∈ o.entries.insert p e
        exact (AList.mem_insert _).mpr (Or.inl (by omega))
      · right; left
        show max o.maxpos p ∈ o.entries.insert p e
        rw [hmax]
        exact (AList.mem_insert _).mpr (Or.inr hmem)
      · right; right
        show o.belowTrimLimit (max o.maxpos p) = true
        rwa [hmax]

/-- What `MaxPos` answers is the trim limit or the position of an entry. -/
theorem Backed.maxPos (h : o.Backed) (hx : o.maxPos = some x) :
    o.trimLimit = some x ∨ x ∈ o.entries := by
  unfold LogObject.maxPos at hx
  split at hx
  · -- without entries the limit is the maximum
    exact Or.inl hx
  · next hne =>
    -- with entries `maxpos` is one of them, or trimmed
    have hbacked : o.maxpos ∈ o.entries ∨ o.belowTrimLimit o.maxpos = true := by
      refine h.resolve_left ?_
      rintro ⟨hempty, -⟩
      rw [hempty] at hne
      exact hne rfl
    unfold belowTrimLimit at hbacked
    split at hx
    · -- with a limit the greater of the two is the answer
      next l hl =>
      cases hx
      rw [hl] at hbacked ⊢
      rcases Nat.le_total o.maxpos l with hle | hle
      · exact Or.inl (by rw [Nat.max_eq_right hle])
      · rw [Nat.max_eq_left hle]
        rcases hbacked with hmem | hbelow
        · exact Or.inr hmem
        · left
          rw [Nat.le_antisymm hle (of_decide_eq_true hbelow)]
    · next hl =>
      cases hx
      rw [hl] at hbacked
      rcases hbacked with hmem | hfalse
      · exact Or.inr hmem
      · cases hfalse

/-- The limit of an object after a call. -/
theorem Update.trimLimit (hu : o.Update limit o') (hx : o'.trimLimit = some x) :
    o.trimLimit = some x ∨ limit = some x := by
  cases hu with
  | same => exact Or.inl hx
  | epoch e => exact Or.inl hx
  | entry p e hbelow => exact Or.inl hx
  -- a range trim keeps the limit, or sets it to its position
  | range p full hlimit hfull =>
    have hraise : (o.raiseTrimLimit p).trimLimit = some x := by
      cases full with
      | true => exact hx
      | false =>
        rw [trim_range] at hx
        exact hx
    unfold raiseTrimLimit at hraise
    split at hraise
    · next l hl =>
      cases hraise
      rcases Nat.le_total p l with hle | hle
      · exact Or.inl (by rw [Nat.max_eq_right hle, hl])
      · exact Or.inr (by rw [Nat.max_eq_left hle, hlimit])
    · cases hraise
      exact Or.inr hlimit

end LogObject

/-- The objects of the log are backed. -/
def BackedObjects (u : Uuid) (b : Store) : Prop := ∀ s i o, objectAt u b s i = some o → o.Backed

/-- The trim limits of the objects are positions in use, or exempt. -/
def LimitsUsed (u : Uuid) (b : Store) (exempt : Nat → Prop) : Prop :=
  ∀ s i o x, objectAt u b s i = some o → o.trimLimit = some x →
    positionSlot u b x ≠ .unwritten ∨ exempt x

section

variable {u : Uuid} {name : String} {b b' : Store} {exempt : Nat → Prop}

/-- A call of the log keeps `maxpos` of every object backed. -/
theorem CallOk.backed (hl : LogOk u name b) {α : Type} {call : Call Fbs.View α}
    (hc : CallOk u name b call) (h : BackedObjects u b) : BackedObjects u (b.exec call).2 := by
  intro s i o' ho'
  rcases hc.update hl ho' with ⟨e, rfl⟩ | ⟨o, ho, hu⟩
  · exact .new e
  · exact (h s i o ho).update hu

/-- A call of the log sets limits to positions that the request trims. -/
theorem CallOk.limitsUsed (hl : LogOk u name b) {α : Type} {call : Call Fbs.View α}
    (hc : CallOk u name b call) (h : LimitsUsed u b exempt)
    (hraise : ∀ p, call.raises? = some p → exempt p) : LimitsUsed u (b.exec call).2 exempt := by
  intro s i o' x ho' hx
  rcases hc.update hl ho' with ⟨e, rfl⟩ | ⟨o, ho, hu⟩
  · cases hx
  · rcases hu.trimLimit hx with hold | hlimit
    · have hk := CallOk.exec hl hc
      refine (h s i o x ho hold).imp_left ?_
      exact (hk.grows.positionSlot_le hl hk.ok x).ne_unwritten
    · exact Or.inr (hraise x hlimit)

/-- Without exempt limits, objects answer with positions in use. -/
theorem BackedObjects.topsUsed (h : BackedObjects u b) (hl : LogOk u name b)
    (hlimits : LimitsUsed u b fun _ => False) : TopsUsed u b := by
  intro s i o x ho hx
  rcases (h s i o ho).maxPos hx with hlimit | hmem
  · exact (hlimits s i o x ho hlimit).resolve_right id
  · exact hl.entry_used ho hmem

end

/-! ## Positions of the log -/

/-- The counter after an operation. -/
def Request.counterAfter : Request → Ret Reply → Nat → Nat
  | .append _, .ok (.position p), _ => p + 1
  | _, _, n => n

namespace SharedLog

/-- The state that an entry gives its position. -/
def Entry.slot : Entry → Slot
  | .data text => .written text
  | .invalid => .invalid

/-- The state of a position. -/
def slot (l : SharedLog) (p : Nat) : Slot :=
  if p < l.trimmed then .invalid
  else
    match l.entries p with
    | none => .unwritten
    | some entry => entry.slot

section

variable {l l' : SharedLog} {p q n : Nat} {r : Request} {result : Ret Reply} {s s' : Slots}

/-- What is below `trimmed` is invalid. -/
theorem slot_trimmed (h : p < l.trimmed) : l.slot p = .invalid := if_pos h

/-- The positions in use are those that are not free. -/
theorem mem_used : p ∈ l.used ↔ l.slot p ≠ .unwritten := by
  unfold used slot
  by_cases hp : p < l.trimmed
  · simp [hp]
  · cases hentry : l.entries p with
    | none => simp [hp, hentry]
    | some entry => cases entry <;> simp [hp, hentry, Entry.slot]

/-- One entry is set, unless it is trimmed. -/
theorem slot_set (entry : Entry) : (l.set p entry).slot q =
    if q = p ∧ l.trimmed ≤ p then entry.slot else l.slot q := by
  unfold slot set
  by_cases hq : q < l.trimmed
  · have hno : ¬ (q = p ∧ l.trimmed ≤ p) := by omega
    rw [if_pos hq, if_neg hno, if_pos hq]
  · rw [if_neg hq, if_neg hq]
    by_cases hqp : q = p
    · subst hqp
      rw [if_pos ⟨rfl, Nat.le_of_not_lt hq⟩]
      simp only [Function.update_self]
    · rw [if_neg fun h => hqp h.1]
      simp only [Function.update_of_ne hqp]

/-- A read answers by the slot. -/
theorem read_eq : l.read p = readAnswer (l.slot p) := by
  unfold read slot
  split
  · rfl
  · cases l.entries p with
    | none => rfl
    | some entry => cases entry <;> rfl

/-- A position that becomes invalid. -/
theorem slot_invalidate (p : Nat) :
    (l.set p .invalid).slot = Function.update l.slot p .invalid := by
  funext q
  rw [slot_set]
  by_cases hqp : q = p
  · subst hqp
    rw [Function.update_self]
    split
    · rfl
    · next hno => exact slot_trimmed (by omega)
  · rw [Function.update_of_ne hqp, if_neg fun h => hqp h.1]

/-- An append writes its free slot. -/
theorem slot_append {data : String} (h : l.slot p = .unwritten) :
    (l.set p (.data data)).slot = Function.update l.slot p (.written data) := by
  funext q
  rw [slot_set]
  by_cases hqp : q = p
  · subst hqp
    have hle : l.trimmed ≤ q := by
      by_contra hlt
      rw [slot_trimmed (by omega)] at h
      cases h
    rw [Function.update_self, if_pos ⟨rfl, hle⟩]
    rfl
  · rw [Function.update_of_ne hqp, if_neg fun h => hqp h.1]

/-- `TrimTo` invalidates everything up to its position. -/
theorem slot_trimTo (p : Nat) :
    ({ l with trimmed := max l.trimmed (p + 1) } : SharedLog).slot q =
      if q ≤ p then .invalid else l.slot q := by
  split
  · next hq => exact slot_trimmed (lt_max_of_lt_right (Nat.lt_succ_of_le hq))
  · next hq =>
    have hlt : q < max l.trimmed (p + 1) ↔ q < l.trimmed := by omega
    unfold slot
    simp only [hlt]

/-- A written position is not filled. -/
theorem fill_of_written {data : String} (h : l.slot p = .written data) :
    l.fill p = (.error .erofs, l) := by
  have hread : l.read p = .ok (.data data) := by
    rw [read_eq, h]
    rfl
  unfold fill
  rw [hread]

/-- Any other position is. -/
theorem fill_of_not_written (h : ∀ data, l.slot p ≠ .written data) :
    l.fill p = (.ok .unit, l.set p .invalid) := by
  unfold fill
  rw [read_eq]
  cases hslot : l.slot p with
  | written data => exact absurd hslot (h data)
  | _ => rfl

/-- **An operation** that takes effect on the positions does what it does to the log, if an append
    takes the next position that is not in use and `CheckTail` returns the counter. -/
theorem step_of_slots (h : s.Step r result s')
    (hs : ∀ q, s q = l.slot q ∨ (∃ p, r = .trimTo p ∧ q ≤ p) ∧ s q = .invalid)
    (happend : ∀ data p, r = .append data → result = .ok (.position p) →
      l.counter ≤ p ∧ ∀ q, l.counter ≤ q → q < p → l.slot q ≠ .unwritten)
    (htail : ∀ p, r = .checkTail → result = .ok (.position p) → p = l.counter)
    (hio : r.Sequenced → result ≠ .error .eio) :
    ∃ l', l.Step r result l' ∧ l'.slot = s' ∧ l'.counter = r.counterAfter result l.counter := by
  -- only a `trimTo` has changed slots before its last step
  have hsame : (∀ p, r ≠ .trimTo p) → s = l.slot := by
    intro hno
    funext q
    refine (hs q).resolve_right ?_
    rintro ⟨⟨p, hr, -⟩, -⟩
    exact hno p hr
  cases h with
  -- every position between the counter and the one written is in use, so the append took the
  -- least free one
  | append data p hp =>
    obtain rfl := hsame fun _ => Request.noConfusion
    obtain ⟨hle, hbetween⟩ := happend data p rfl rfl
    refine ⟨_, .append data p ⟨⟨hle, fun hused => mem_used.mp hused hp⟩, ?_⟩, slot_append hp, rfl⟩
    rintro q ⟨hq, hfree⟩
    by_contra hlt
    exact hfree (mem_used.mpr (hbetween q hq (by omega)))
  -- a client without a sequencer gives up: excluded by `hio`
  | unsequenced data => exact absurd rfl (hio trivial)
  | read p =>
    obtain rfl := hsame fun _ => Request.noConfusion
    rw [← read_eq]
    exact ⟨l, .read p, rfl, rfl⟩
  | fill p =>
    obtain rfl := hsame fun _ => Request.noConfusion
    have hstep := Step.fill (l := l) p
    cases hslot : l.slot p with
    -- a written position stays
    | written data =>
      rw [fill_of_written hslot] at hstep
      refine ⟨l, hstep, ?_, rfl⟩
      rw [Slot.filled, ← hslot, Function.update_eq_self]
    | unwritten =>
      rw [fill_of_not_written (by simp [hslot])] at hstep
      exact ⟨_, hstep, slot_invalidate p, rfl⟩
    | invalid =>
      rw [fill_of_not_written (by simp [hslot])] at hstep
      exact ⟨_, hstep, slot_invalidate p, rfl⟩
  | trim p =>
    obtain rfl := hsame fun _ => Request.noConfusion
    exact ⟨_, .trim p, slot_invalidate p, rfl⟩
  -- what the `trimTo` has erased so far is part of what it erases in all
  | trimTo p =>
    refine ⟨_, .trimTo p, ?_, rfl⟩
    funext q
    rw [slot_trimTo]
    split
    · rfl
    · next hq =>
      refine ((hs q).resolve_right ?_).symm
      rintro ⟨⟨p', hr, hle⟩, -⟩
      cases hr
      exact hq hle
  | checkTail p =>
    obtain rfl := hsame fun _ => Request.noConfusion
    obtain rfl := htail p rfl rfl
    exact ⟨l, .checkTail, rfl, rfl⟩
  | untailed => exact absurd rfl (hio trivial)

end

end SharedLog

/-! ## Positions handed out -/

/-- The positions from `k` to `n` have been handed out since an append began: they turned out to be
    in use, but for the last one, which may be held. -/
structure Drawn (used : Nat → Prop) (k n : Nat) (held : Option Nat) : Prop where
  le : k ≤ n
  between : ∀ q, k ≤ q → q < n → used q ∨ held = some q
  last : ∀ q, held = some q → k ≤ q ∧ q + 1 = n

namespace Drawn

variable {used used' : Nat → Prop} {k n p : Nat} {held : Option Nat}

/-- Nothing is drawn at the start. -/
theorem start (used : Nat → Prop) (k : Nat) : Drawn used k k none :=
  ⟨le_refl k, fun q hq hlt => by omega, fun q h => by cases h⟩

/-- What is drawn stays drawn while more positions come into use. -/
theorem mono (h : Drawn used k n held) (hu : ∀ q, used q → used' q) : Drawn used' k n held :=
  ⟨h.le, fun q hq hlt => (h.between q hq hlt).imp_left (hu q), h.last⟩

/-- The next draw. -/
theorem draw (h : Drawn used k n none) : Drawn used k (n + 1) (some n) := by
  refine ⟨Nat.le_succ_of_le h.le, ?_, ?_⟩
  · intro q hq hlt
    rcases Nat.lt_succ_iff_lt_or_eq.mp hlt with hlt | rfl
    · exact Or.inl ((h.between q hq hlt).resolve_right (by simp))
    · exact Or.inr rfl
  · intro q heq
    cases heq
    exact ⟨h.le, rfl⟩

/-- The position that is held turns out to be in use. -/
theorem giveUp (h : Drawn used k n (some p)) (hp : used p) : Drawn used k n none := by
  refine ⟨h.le, ?_, fun q heq => by cases heq⟩
  intro q hq hlt
  rcases h.between q hq hlt with hu | heq
  · exact Or.inl hu
  · cases heq
    exact Or.inl hp

end Drawn

section

variable {u : Uuid} {b : Store} {sh sh' : Shared} {pc pc' : OpPc} {used : Nat → Prop} {k n : Nat}

/-- A step of an append that goes on. -/
theorem AppendStep.drawn (h : AppendStep sh pc sh' pc') (hf : pc'.InFlight)
    (hcount : sh.seqs ≠ [] → sh.counter = n)
    (htail : ∀ v seq, pc = .sequence v 0 → sh.seqs[0]? = some seq → seq.tail = seq.position)
    (hd : Drawn used k n pc.position?) :
    ∃ n', SeqMove u b sh n sh' n' ∧ Drawn used k n' pc'.position? := by
  -- the appends that end have nothing to draw
  cases h with
  | failed sh' e => exact absurd rfl (hf _)
  | writes v oid p pe => exact absurd rfl (hf _)
  -- still looking for a sequencer
  | seeks v hnone =>
    rw [hnone] at hd
    exact ⟨n, .same rfl, hd⟩
  -- a draw: the counter of the client is the one of the log
  | draws v seq hfrom hdraw hpos =>
    have hnext := hcount hdraw.ne_nil
    rw [hdraw.counter] at hnext
    rw [hpos, htail v seq hfrom hdraw.found, hnext]
    subst hfrom
    exact ⟨n + 1, .drawn seq hdraw, hd.draw⟩
  -- the position is kept until it is written or given up
  | keeps p hp hp' hin hseqs =>
    rw [hp] at hd
    rw [hp']
    exact ⟨n, .same hseqs, hd⟩

/-- An append that returns a position has held it. -/
theorem AppendStep.done {p : Nat} (h : AppendStep sh pc sh' (.done (.ok (.position p)))) :
    sh' = sh ∧ pc.position? = some p := by
  cases h with
  | draws v seq hfrom hdraw hpos hin hf => exact absurd rfl (hf _)
  | keeps q hq hq' hin hseqs hf => exact absurd rfl (hf _)
  | writes v oid q pe hfrom =>
    subst hfrom
    exact ⟨rfl, rfl⟩

/-- A position is given up because it is in use. -/
theorem GivesUp.drawn (h : GivesUp u b sh pc sh' pc')
    (hd : Drawn (fun q => positionSlot u b q ≠ .unwritten) k n pc.position?) :
    Drawn (fun q => positionSlot u b q ≠ .unwritten) k n pc'.position? := by
  obtain ⟨p, hp, hused⟩ := h.taken
  rw [hp] at hd
  rw [h.seeks]
  exact hd.giveUp hused

end

/-! ## In the middle of an operation -/

/-- A `trimTo` that covers the position is under way. -/
def Trims (cur : Option (Request × OpPc)) (q : Nat) : Prop :=
  ∃ p opc, cur = some (.trimTo p, opc) ∧ q ≤ p

/-- The stored log, while `n` positions were handed out and `cur` is under way. -/
structure Midway (u : Uuid) (b : Store) (l : SharedLog) (n : Nat)
    (cur : Option (Request × OpPc)) : Prop where
  slots : ∀ q, positionSlot u b q = l.slot q ∨ Trims cur q ∧ positionSlot u b q = .invalid
  limits : LimitsUsed u b (Trims cur)
  drawn : ∀ data opc, cur = some (.append data, opc) →
    Drawn (fun q => positionSlot u b q ≠ .unwritten) l.counter n opc.position?
  rest : (∀ data opc, cur ≠ some (.append data, opc)) → n = l.counter

section

variable {u : Uuid} {name : String} {b b' : Store} {l : SharedLog} {n n' : Nat} {r : Request}
  {opc opc' : OpPc} {result : Ret Reply} {cur : Option (Request × OpPc)}

/-- Which positions a running `trimTo` may erase does not depend on its control state. -/
theorem trims_running {q : Nat} (h : Trims (some (r, opc)) q) (opc' : OpPc) :
    Trims (some (r, opc')) q := by
  obtain ⟨p, _, heq, hq⟩ := h
  cases heq
  exact ⟨p, opc', rfl, hq⟩

/-- The slots of the log are those of the store, except under a running `trimTo`. -/
theorem Midway.slots_eq (h : Midway u b l n cur) (hno : ∀ q, ¬ Trims cur q) :
    positionSlot u b = l.slot :=
  funext fun q => (h.slots q).resolve_right fun ht => hno q ht.1

/-- While no operation is under way, objects answer with positions in use. -/
theorem Midway.topsUsed (h : Midway u b l n none) (hl : LogOk u name b) (hb : BackedObjects u b) :
    TopsUsed u b := by
  apply hb.topsUsed hl
  intro s i o x ho hx
  refine (h.limits s i o x ho hx).imp_right ?_
  rintro ⟨p, opc, heq, -⟩
  cases heq

/-- A step beside the operation. -/
theorem Midway.beside (h : Midway u b l n cur) (hslots : positionSlot u b' = positionSlot u b)
    (hlimits : LimitsUsed u b' (Trims cur)) : Midway u b' l n cur := by
  refine ⟨?_, hlimits, ?_, h.rest⟩
  · rw [hslots]
    exact h.slots
  · rw [hslots]
    exact h.drawn

/-- **An operation goes on.** -/
theorem Midway.running (h : Midway u b l n (some (r, opc)))
    (hslots : ∀ q, positionSlot u b' q = positionSlot u b q ∨
      Trims (some (r, opc)) q ∧ positionSlot u b' q = .invalid)
    (hlimits : LimitsUsed u b' (Trims (some (r, opc))))
    (hdrawn : ∀ data, r = .append data →
      Drawn (fun q => positionSlot u b q ≠ .unwritten) l.counter n' opc'.position?)
    (hrest : (∀ data, r ≠ .append data) → n' = n) : Midway u b' l n' (some (r, opc')) := by
  refine ⟨?_, ?_, ?_, ?_⟩
  · -- the slots: what changed is erased by the request that runs
    intro q
    rcases hslots q with hsame | ⟨ht, hq⟩
    · rw [hsame]
      exact (h.slots q).imp_right fun ht => ⟨trims_running ht.1 opc', ht.2⟩
    · exact Or.inr ⟨trims_running ht opc', hq⟩
  · -- the limits of the objects
    intro s i o x ho hx
    exact (hlimits s i o x ho hx).imp_right fun ht => trims_running ht opc'
  · -- the positions drawn
    intro data opc₁ heq
    cases heq
    refine (hdrawn data rfl).mono fun q hq => ?_
    rcases hslots q with hsame | ⟨⟨p, _, heq, -⟩, -⟩
    · rwa [hsame]
    · cases heq
  · -- between requests the counter is the abstract one
    intro hno
    have hreq : ∀ data, r ≠ .append data := fun data heq => hno data opc' (by rw [heq])
    rw [hrest hreq]
    exact h.rest fun data opc₁ heq => by
      cases heq
      exact hreq data rfl

/-- **An operation returns**: it does to the log what it has done to the positions. -/
theorem Midway.returns (h : Midway u b l n (some (r, opc)))
    (hstep : Slots.Step (positionSlot u b) r result (positionSlot u b'))
    (hlimits : LimitsUsed u b' (Trims (some (r, opc))))
    (happend : ∀ data p, r = .append data → result = .ok (.position p) → opc.position? = some p)
    (htail : ∀ p, r = .checkTail → result = .ok (.position p) → p = n)
    (hio : r.Sequenced → result ≠ .error .eio) :
    ∃ l', l.Step r result l' ∧ Midway u b' l' n none := by
  have hrest : (∀ data, r ≠ .append data) → n = l.counter := by
    intro hno
    exact h.rest fun data opc₁ heq => by
      cases heq
      exact hno data rfl
  have hdrawn : ∀ data p, r = .append data → result = .ok (.position p) →
      Drawn (fun q => l.slot q ≠ .unwritten) l.counter n (some p) := by
    rintro data p rfl hres
    have hd := h.drawn data opc rfl
    rw [happend data p rfl hres] at hd
    have heq : positionSlot u b = l.slot := by
      apply h.slots_eq
      rintro q ⟨_, _, heq, -⟩
      cases heq
    rw [heq] at hd
    exact hd
  have hs : ∀ q, positionSlot u b q = l.slot q ∨
      (∃ p, r = .trimTo p ∧ q ≤ p) ∧ positionSlot u b q = .invalid := by
    intro q
    refine (h.slots q).imp_right ?_
    rintro ⟨⟨p, opc₁, heq, hq⟩, hinvalid⟩
    cases heq
    exact ⟨⟨p, rfl, hq⟩, hinvalid⟩
  have hnext : ∀ data p, r = .append data → result = .ok (.position p) →
      l.counter ≤ p ∧ ∀ q, l.counter ≤ q → q < p → l.slot q ≠ .unwritten := by
    intro data p hr hres
    have hd := hdrawn data p hr hres
    obtain ⟨hle, hlast⟩ := hd.last p rfl
    refine ⟨hle, fun q hq hlt => ?_⟩
    refine (hd.between q hq (by omega)).resolve_right fun heq => ?_
    cases heq
    exact Nat.lt_irrefl _ hlt
  have htail' : ∀ p, r = .checkTail → result = .ok (.position p) → p = l.counter := by
    intro p hr hres
    rw [htail p hr hres]
    exact hrest fun data heq => by
      rw [hr] at heq
      cases heq
  obtain ⟨l', hl, hslots, hcounter⟩ := SharedLog.step_of_slots hstep hs hnext htail' hio
  refine ⟨l', hl, ?_, ?_, ?_, ?_⟩
  · intro q
    rw [hslots]
    exact Or.inl rfl
  · intro s i o x ho hx
    left
    rcases hlimits s i o x ho hx with hused | ⟨p, opc₁, heq, hxp⟩
    · exact hused
    · -- the `trimTo` has made all its positions invalid
      cases heq
      rw [← hslots]
      cases hl
      rw [SharedLog.slot_trimTo, if_pos hxp]
      exact Slot.noConfusion
  · exact fun data opc₁ heq => by cases heq
  · intro _
    rw [hcounter]
    cases r with
    | append data =>
      cases hl with
      | append _ p => exact ((hdrawn data p rfl rfl).last p rfl).2.symm
    | _ => exact hrest fun _ => Request.noConfusion

end

end ZLog
