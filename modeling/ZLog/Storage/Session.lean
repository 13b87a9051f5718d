import ZLog.Storage.Slot

/-!
# Sessions on a RAM log object

A session is a sequence of entry calls on one object name, started where the name is unbound,
with the answers the backend gave.  The only discipline on the caller is the one `TrimToOp`
keeps: a full trim names a position that is at least every position written, filled or singly
trimmed before it.

- `slotAt_exec`: the exact effect of one call on every position, from its answer.
- `Session.sealed`, `exec_stale`: the stored epoch fences older callers.
- `Session.written`: what a session remembers of a successful write.
- `fill_idem`, `trim_idem`: repeating a fill or a trim changes nothing.
-/

namespace ZLog

variable {ν : Type}

/-! ## Calls on one object -/

/-- A call together with its answer. -/
structure Done (ν : Type) where
  {α : Type}
  call : Call ν α
  reply : α

/-- A call with any answer type. -/
abbrev AnyCall (ν : Type) := Σ α : Type, Call ν α

/-- The answers to a list of calls. -/
def answers (b : RAMBackend ν) : List (AnyCall ν) → List (Done ν)
  | [] => []
  | ⟨_, c⟩ :: cs => ⟨c, (b.exec c).1⟩ :: answers (b.exec c).2 cs

/-- The state after a list of calls. -/
def after (b : RAMBackend ν) : List (AnyCall ν) → RAMBackend ν
  | [] => b
  | ⟨_, c⟩ :: cs => after (b.exec c).2 cs

/-- The entry calls on the object `oid`. -/
inductive OnObject (oid : String) : {α : Type} → Call ν α → Prop where
  | seal (epoch : Nat) : OnObject oid (.seal oid epoch)
  | read (epoch position : Nat) : OnObject oid (.read oid epoch position)
  | write (data : String) (epoch position : Nat) : OnObject oid (.write oid data epoch position)
  | fill (epoch position : Nat) : OnObject oid (.fill oid epoch position)
  | trim (epoch position : Nat) (trimLimit trimFull : Bool) :
      OnObject oid (.trim oid epoch position trimLimit trimFull)
  | maxPos : OnObject oid (.maxPos oid)

/-- The position that a call which returned 0 wrote, filled or singly trimmed. -/
def Done.touches : Done ν → Option Nat
  | ⟨.write _ _ _ position, .ok _⟩ => some position
  | ⟨.fill _ _ position, .ok _⟩ => some position
  | ⟨.trim _ _ position false _, .ok _⟩ => some position
  | _ => none

/-- The positions written, filled or singly trimmed so far. -/
def touched (h : List (Done ν)) : List Nat := h.filterMap Done.touches

/-- A full trim covers every position touched so far. -/
def TrimFullOk (h : List (Done ν)) : {α : Type} → Call ν α → Prop
  | _, .trim _ _ position _ true => ∀ q ∈ touched h, q ≤ position
  | _, _ => True

/-- Calls on `oid`, from the history `h₀` and the state `b₀` on. -/
inductive Session (oid : String) (h₀ : List (Done ν)) (b₀ : RAMBackend ν) :
    List (Done ν) → RAMBackend ν → Prop where
  | start : Session oid h₀ b₀ h₀ b₀
  | call {h : List (Done ν)} {b : RAMBackend ν} {α : Type} (c : Call ν α) :
      Session oid h₀ b₀ h b → OnObject oid c → TrimFullOk h c →
      Session oid h₀ b₀ (h ++ [⟨c, (b.exec c).1⟩]) (b.exec c).2

/-! ## The effect of one call on the slots -/

/-- The state of position `p` after a call, from its state before and the call's answer. -/
def Done.next (p : Nat) (s : Slot) : Done ν → Slot
  | ⟨.write _ data _ q, .ok _⟩ => if p = q then .written data else s
  | ⟨.fill _ _ q, .ok _⟩ => if p = q then .invalid else s
  | ⟨.trim _ _ q trimLimit _, .ok _⟩ => if LogObject.TrimCovers q trimLimit p then .invalid else s
  | _ => s

/-- The call is a trim that returned 0 and covers `p`. -/
def Done.trims (p : Nat) : Done ν → Prop
  | ⟨.trim _ _ q trimLimit _, .ok _⟩ => LogObject.TrimCovers q trimLimit p
  | _ => False

/-- What a session keeps true of the object. -/
structure SessionInv (oid : String) (h : List (Done ν)) (b : RAMBackend ν) : Prop where
  /-- Data is stored. -/
  stores : b.blackhole = false
  /-- Every entry was written, filled or singly trimmed. -/
  keys : ∀ o, b.logAt oid = some o → ∀ k ∈ o.entries, k ∈ touched h

theorem keys_le_of_trimFullOk {oid : String} {h : List (Done ν)} {b : RAMBackend ν}
    (hi : SessionInv oid h b) {e p : Nat} {l f : Bool} {o : LogObject}
    (ho : b.logAt oid = some o) (hok : TrimFullOk h (.trim oid e p l f : Call ν _)) :
    f = true → ∀ k ∈ o.entries, k ≤ p := by
  intro hf k hk
  subst hf
  exact hok k (hi.keys o ho k hk)

/-- **Exact effect on slots**: the answer of a call says how every position moved. -/
theorem slotAt_exec {oid : String} {h : List (Done ν)} {b : RAMBackend ν}
    (hi : SessionInv oid h b) {α : Type} {c : Call ν α} (hc : OnObject oid c)
    (hok : TrimFullOk h c) (p : Nat) :
    (b.exec c).2.slotAt oid p = Done.next p (b.slotAt oid p) ⟨c, (b.exec c).1⟩ := by
  cases hc with
  | «seal» e =>
    show (b.seal oid e).2.slotAt oid p = b.slotAt oid p
    -- no object, an old epoch, a new object, a later epoch, or no log object at all
    rcases b.seal_cases oid e with ⟨-, h⟩ | ⟨-, -, hn, h⟩ | ⟨o, -, -, h⟩ | ⟨o, ho, -, -, h⟩ |
      ⟨-, -, h⟩ <;> rw [h]
    · -- a new object has nothing in any position
      have hn' : b.logAt oid = none := by simp [RAMBackend.logAt, hn]
      rw [RAMBackend.slotAt_of_logAt (RAMBackend.logAt_setLog ..)]
      simp only [RAMBackend.slotAt, hn']
      rfl
    · -- sealing keeps the entries
      rw [RAMBackend.slotAt_of_logAt (RAMBackend.logAt_setLog ..),
        RAMBackend.slotAt_of_logAt ho, LogObject.slot_setEpoch]
  | read e q => rfl
  | write d e q =>
    show (b.write oid d e q).2.slotAt oid p =
      Done.next p (b.slotAt oid p) ⟨.write oid d e q, (b.write oid d e q).1⟩
    rcases b.write_cases oid d e q with ⟨err, -, h⟩ | ⟨o, -, -, h⟩ | ⟨o, hio, hu, h⟩ <;> rw [h]
    · rfl
    · rfl
    · -- the write went through: it found the position unwritten
      have ho := (RAMBackend.checkIo_eq_ok.mp hio).2.2.1
      rw [hi.stores, RAMBackend.slotAt_of_logAt (RAMBackend.logAt_setLog ..),
        RAMBackend.slotAt_of_logAt ho]
      exact LogObject.slot_write hu d p
  | fill e q =>
    show (b.fill oid e q).2.slotAt oid p =
      Done.next p (b.slotAt oid p) ⟨.fill oid e q, (b.fill oid e q).1⟩
    rcases b.fill_cases oid e q with ⟨err, -, h⟩ | ⟨o, d, -, -, h⟩ | ⟨o, hio, hs, h⟩ |
      ⟨o, hio, hs, h⟩ <;> rw [h]
    · rfl
    · rfl
    · have ho := (RAMBackend.checkIo_eq_ok.mp hio).2.2.1
      rw [RAMBackend.slotAt_of_logAt (RAMBackend.logAt_setLog ..), RAMBackend.slotAt_of_logAt ho]
      show o.slot p = if p = q then .invalid else o.slot p
      -- filling a position that is invalid already changes nothing
      by_cases hpq : p = q
      · simp [hpq, hs]
      · simp [hpq]
    · have ho := (RAMBackend.checkIo_eq_ok.mp hio).2.2.1
      rw [RAMBackend.slotAt_of_logAt (RAMBackend.logAt_setLog ..), RAMBackend.slotAt_of_logAt ho]
      exact LogObject.slot_fill hs p
  | trim e q l f =>
    show (b.trim oid e q l f).2.slotAt oid p =
      Done.next p (b.slotAt oid p) ⟨.trim oid e q l f, (b.trim oid e q l f).1⟩
    rcases b.trim_cases oid e q l f with ⟨-, -, h⟩ | ⟨err, -, h⟩ | ⟨o, hio, hlf, h⟩ <;> rw [h]
    · rfl
    · rfl
    · -- a full trim covers every entry, by the condition on such calls
      have ho := (RAMBackend.checkIo_eq_ok.mp hio).2.2.1
      rw [RAMBackend.slotAt_of_logAt (RAMBackend.logAt_setLog ..), RAMBackend.slotAt_of_logAt ho]
      exact LogObject.slot_trim hlf (keys_le_of_trimFullOk hi ho hok) p
  | maxPos => rfl

@[simp] theorem touched_append (h : List (Done ν)) (d : Done ν) :
    touched (h ++ [d]) = touched h ++ d.touches.toList := by
  cases hd : d.touches <;> simp [touched, hd]

/-- A call either leaves the backend alone or replaces the object under `oid`, and every entry
    of the new object was there before or is touched by the call. -/
theorem exec_object {oid : String} {b : RAMBackend ν} {α : Type} {c : Call ν α}
    (hc : OnObject oid c) :
    (b.exec c).2 = b ∨
    ∃ o', (b.exec c).2 = b.setLog oid o' ∧ b.epochAt oid ≤ o'.epoch ∧
      ∀ k ∈ o'.entries, (∃ o, b.logAt oid = some o ∧ k ∈ o.entries) ∨
        Done.touches ⟨c, (b.exec c).1⟩ = some k := by
  cases hc with
  | «seal» e =>
    show (b.seal oid e).2 = b ∨ ∃ o', (b.seal oid e).2 = b.setLog oid o' ∧ _
    rcases b.seal_cases oid e with ⟨-, h⟩ | ⟨-, -, hn, h⟩ | ⟨o, -, -, h⟩ | ⟨o, ho, hlt, -, h⟩ |
      ⟨-, -, h⟩ <;> rw [h]
    · exact Or.inl rfl
    · -- a new object has no entries
      refine Or.inr ⟨_, rfl, ?_, ?_⟩
      · simp [RAMBackend.epochAt, RAMBackend.logAt, hn]
      · intro k hk
        exact absurd hk (AList.notMem_empty k)
    · exact Or.inl rfl
    · refine Or.inr ⟨_, rfl, ?_, ?_⟩
      · rw [RAMBackend.epochAt_of_logAt ho]
        exact le_of_lt hlt
      · intro k hk
        exact Or.inl ⟨o, ho, hk⟩
    · exact Or.inl rfl
  | read e q => exact Or.inl rfl
  | write d e q =>
    show (b.write oid d e q).2 = b ∨ ∃ o', (b.write oid d e q).2 = b.setLog oid o' ∧ _ ∧
      ∀ k ∈ o'.entries, _ ∨ Done.touches ⟨.write oid d e q, (b.write oid d e q).1⟩ = some k
    rcases b.write_cases oid d e q with ⟨err, -, h⟩ | ⟨o, -, -, h⟩ | ⟨o, hio, hu, h⟩ <;> rw [h]
    · exact Or.inl rfl
    · exact Or.inl rfl
    · have ho := (RAMBackend.checkIo_eq_ok.mp hio).2.2.1
      refine Or.inr ⟨_, rfl, ?_, ?_⟩
      · rw [RAMBackend.epochAt_of_logAt ho, LogObject.epoch_write]
      · intro k hk
        rcases (LogObject.mem_entries_write hu _ k).mp hk with rfl | hk
        · exact Or.inr rfl
        · exact Or.inl ⟨o, ho, hk⟩
  | fill e q =>
    show (b.fill oid e q).2 = b ∨ ∃ o', (b.fill oid e q).2 = b.setLog oid o' ∧ _ ∧
      ∀ k ∈ o'.entries, _ ∨ Done.touches ⟨.fill oid e q, (b.fill oid e q).1⟩ = some k
    rcases b.fill_cases oid e q with ⟨err, -, h⟩ | ⟨o, d, -, -, h⟩ | ⟨o, hio, hs, h⟩ |
      ⟨o, hio, hs, h⟩ <;> rw [h]
    · exact Or.inl rfl
    · exact Or.inl rfl
    · have ho := (RAMBackend.checkIo_eq_ok.mp hio).2.2.1
      refine Or.inr ⟨o, rfl, ?_, ?_⟩
      · rw [RAMBackend.epochAt_of_logAt ho]
      · intro k hk
        exact Or.inl ⟨o, ho, hk⟩
    · have ho := (RAMBackend.checkIo_eq_ok.mp hio).2.2.1
      refine Or.inr ⟨_, rfl, ?_, ?_⟩
      · rw [RAMBackend.epochAt_of_logAt ho, LogObject.epoch_fill]
      · intro k hk
        rcases (LogObject.mem_entries_fill hs k).mp hk with rfl | hk
        · exact Or.inr rfl
        · exact Or.inl ⟨o, ho, hk⟩
  | trim e q l f =>
    show (b.trim oid e q l f).2 = b ∨ ∃ o', (b.trim oid e q l f).2 = b.setLog oid o' ∧ _ ∧
      ∀ k ∈ o'.entries, _ ∨ Done.touches ⟨.trim oid e q l f, (b.trim oid e q l f).1⟩ = some k
    rcases b.trim_cases oid e q l f with ⟨-, -, h⟩ | ⟨err, -, h⟩ | ⟨o, hio, hlf, h⟩ <;> rw [h]
    · exact Or.inl rfl
    · exact Or.inl rfl
    · have ho := (RAMBackend.checkIo_eq_ok.mp hio).2.2.1
      refine Or.inr ⟨_, rfl, ?_, ?_⟩
      · rw [RAMBackend.epochAt_of_logAt ho, LogObject.epoch_trim]
      · intro k hk
        rcases LogObject.mem_entries_trim hk with hk | ⟨rfl, rfl⟩
        · exact Or.inl ⟨o, ho, hk⟩
        · exact Or.inr rfl
  | maxPos => exact Or.inl rfl

/-- One call keeps the session invariant. -/
theorem SessionInv.exec {oid : String} {h : List (Done ν)} {b : RAMBackend ν}
    (hi : SessionInv oid h b) {α : Type} {c : Call ν α} (hc : OnObject oid c) :
    SessionInv oid (h ++ [⟨c, (b.exec c).1⟩]) (b.exec c).2 := by
  -- the step leaves the object alone, or replaces it
  rcases exec_object (b := b) hc with heq | ⟨o', heq, -, hkeys⟩ <;> rw [heq]
  · refine ⟨hi.stores, ?_⟩
    intro o ho k hk
    rw [touched_append]
    exact List.mem_append_left _ (hi.keys o ho k hk)
  · refine ⟨hi.stores, ?_⟩
    intro o ho k hk
    rw [RAMBackend.logAt_setLog] at ho
    cases ho
    rw [touched_append, List.mem_append]
    -- an entry of the object is an old one or the one that the call touched
    rcases hkeys k hk with ⟨o, ho, hk⟩ | ht
    · exact Or.inl (hi.keys o ho k hk)
    · exact Or.inr (by simp [ht])

theorem epochAt_exec_le {oid : String} (b : RAMBackend ν) {α : Type} {c : Call ν α}
    (hc : OnObject oid c) : b.epochAt oid ≤ (b.exec c).2.epochAt oid := by
  rcases exec_object (b := b) hc with heq | ⟨o', heq, hle, -⟩ <;> rw [heq]
  rw [RAMBackend.epochAt_of_logAt (RAMBackend.logAt_setLog ..)]
  exact hle

/-! ## Whole sessions -/

/-- The object does not exist yet and the backend stores data. -/
structure FreshObject (oid : String) (b : RAMBackend ν) : Prop where
  stores : b.blackhole = false
  unbound : b.objects.lookup oid = none

theorem SessionInv.of_fresh {oid : String} {b : RAMBackend ν} (hf : FreshObject oid b) :
    SessionInv oid [] b := by
  refine ⟨hf.stores, ?_⟩
  intro o ho
  rw [RAMBackend.logAt_eq_some, hf.unbound] at ho
  cases ho

theorem Session.inv {oid : String} {h₀ h : List (Done ν)} {b₀ b : RAMBackend ν}
    (hi : SessionInv oid h₀ b₀) (hs : Session oid h₀ b₀ h b) : SessionInv oid h b := by
  induction hs with
  | start => exact hi
  | call c _ hc _ ih => exact ih.exec hc

/-- A sealed object carries at least the sealing epoch, also when `Seal` answered `-ESPIPE`. -/
theorem Session.sealed {oid : String} {b₀ b : RAMBackend ν} {h : List (Done ν)}
    (hs : Session oid [] b₀ h b) {e : Nat} {r : Ret Unit}
    (hmem : (⟨.seal oid e, r⟩ : Done ν) ∈ h) (hr : r = .ok () ∨ r = .error .espipe) :
    e ≤ b.epochAt oid := by
  -- by the session, from its last call
  induction hs with
  | start => cases hmem
  | @call h b α c _ hc _ ih =>
    -- an earlier seal, and epochs never go down; or the last call itself
    rcases List.mem_append.mp hmem with hmem | hmem
    · exact le_trans (ih hmem) (epochAt_exec_le b hc)
    · cases List.mem_singleton.mp hmem
      change (b.seal oid e).1 = _ ∨ (b.seal oid e).1 = _ at hr
      show e ≤ (b.seal oid e).2.epochAt oid
      rcases b.seal_cases oid e with ⟨-, h⟩ | ⟨-, -, -, h⟩ | ⟨o, ho, hle, h⟩ | ⟨o, -, -, -, h⟩ |
        ⟨-, -, h⟩ <;> rw [h] at hr ⊢
      · rcases hr with hr | hr <;> cases hr
      · rw [RAMBackend.epochAt_of_logAt (RAMBackend.logAt_setLog ..)]
      · rw [RAMBackend.epochAt_of_logAt ho]
        exact hle
      · rw [RAMBackend.epochAt_of_logAt (RAMBackend.logAt_setLog ..)]
      · rcases hr with hr | hr <;> cases hr

/-- The epoch an entry call carries. -/
def Call.ioEpoch : {α : Type} → Call ν α → Option Nat
  | _, .read _ epoch _ => some epoch
  | _, .write _ _ epoch _ => some epoch
  | _, .fill _ epoch _ => some epoch
  | _, .trim _ epoch _ _ _ => some epoch
  | _, _ => none

/-- The call returned 0. -/
def Done.ok : Done ν → Bool
  | ⟨.read _ _ _, .ok _⟩ => true
  | ⟨.write _ _ _ _, .ok _⟩ => true
  | ⟨.fill _ _ _, .ok _⟩ => true
  | ⟨.trim _ _ _ _ _, .ok _⟩ => true
  | ⟨.seal _ _, .ok _⟩ => true
  | ⟨.maxPos _, .ok _⟩ => true
  | _ => false

/-- An entry call with an epoch below the stored one fails and changes nothing. -/
theorem exec_stale {oid : String} {b : RAMBackend ν} {α : Type} {c : Call ν α}
    (hc : OnObject oid c) {e : Nat} (he : c.ioEpoch = some e) (hlt : e < b.epochAt oid) :
    Done.ok ⟨c, (b.exec c).1⟩ = false ∧ (b.exec c).2 = b := by
  -- the epoch check fails on the object
  have hio : ∀ o, b.checkIo oid e ≠ .ok o := by
    intro o hok
    have ⟨_, _, ho, hle⟩ := RAMBackend.checkIo_eq_ok.mp hok
    rw [RAMBackend.epochAt_of_logAt ho] at hlt
    omega
  cases hc with
  | «seal» e' => cases he
  | read e' q =>
    cases he
    refine ⟨?_, rfl⟩
    show Done.ok ⟨.read oid e q, b.read oid e q⟩ = false
    unfold RAMBackend.read
    cases hck : b.checkIo oid e with
    | error err => rfl
    | ok o => exact absurd hck (hio o)
  | write d e' q =>
    cases he
    show Done.ok ⟨.write oid d e q, (b.write oid d e q).1⟩ = false ∧ (b.write oid d e q).2 = b
    rcases b.write_cases oid d e q with ⟨err, -, h⟩ | ⟨o, hck, -⟩ | ⟨o, hck, -⟩
    · rw [h]
      exact ⟨rfl, rfl⟩
    · exact absurd hck (hio o)
    · exact absurd hck (hio o)
  | fill e' q =>
    cases he
    show Done.ok ⟨.fill oid e q, (b.fill oid e q).1⟩ = false ∧ (b.fill oid e q).2 = b
    rcases b.fill_cases oid e q with ⟨err, -, h⟩ | ⟨o, d, hck, -⟩ | ⟨o, hck, -⟩ | ⟨o, hck, -⟩
    · rw [h]
      exact ⟨rfl, rfl⟩
    · exact absurd hck (hio o)
    · exact absurd hck (hio o)
    · exact absurd hck (hio o)
  | trim e' q l f =>
    cases he
    show Done.ok ⟨.trim oid e q l f, (b.trim oid e q l f).1⟩ = false ∧
      (b.trim oid e q l f).2 = b
    rcases b.trim_cases oid e q l f with ⟨-, -, h⟩ | ⟨err, -, h⟩ | ⟨o, hck, -⟩
    · rw [h]
      exact ⟨rfl, rfl⟩
    · rw [h]
      exact ⟨rfl, rfl⟩
    · exact absurd hck (hio o)
  | maxPos => cases he

/-- `Write` succeeds only on an unwritten position. -/
theorem slotAt_of_write_ok {oid d : String} {b : RAMBackend ν} {e p : Nat}
    (h : (b.write oid d e p).1 = .ok ()) : b.slotAt oid p = .unwritten := by
  rcases b.write_cases oid d e p with ⟨err, -, hw⟩ | ⟨o, -, -, hw⟩ | ⟨o, hio, hu, -⟩
  · rw [hw] at h
    cases h
  · rw [hw] at h
    cases h
  · rw [RAMBackend.slotAt_of_logAt (RAMBackend.checkIo_eq_ok.mp hio).2.2.1]
    exact hu

/-- `Fill` does not succeed on a written position. -/
theorem slotAt_of_fill_ok {oid : String} {b : RAMBackend ν} {e p : Nat}
    (h : (b.fill oid e p).1 = .ok ()) (d : String) : b.slotAt oid p ≠ .written d := by
  rcases b.fill_cases oid e p with ⟨err, -, hf⟩ | ⟨o, d', -, -, hf⟩ | ⟨o, hio, hs, -⟩ |
    ⟨o, hio, hs, -⟩
  · rw [hf] at h
    cases h
  · rw [hf] at h
    cases h
  · rw [RAMBackend.slotAt_of_logAt (RAMBackend.checkIo_eq_ok.mp hio).2.2.1, hs]
    exact Slot.noConfusion
  · rw [RAMBackend.slotAt_of_logAt (RAMBackend.checkIo_eq_ok.mp hio).2.2.1, hs]
    exact Slot.noConfusion

/-- Every call moves every position forward in its life cycle. -/
theorem slotAt_exec_le {oid : String} {h : List (Done ν)} {b : RAMBackend ν}
    (hi : SessionInv oid h b) {α : Type} {c : Call ν α} (hc : OnObject oid c)
    (hok : TrimFullOk h c) (p : Nat) :
    Slot.Le (b.slotAt oid p) ((b.exec c).2.slotAt oid p) := by
  rw [slotAt_exec hi hc hok]
  cases hc with
  | «seal» e => exact .refl _
  | read e q => exact .refl _
  | write d e q =>
    cases hr : (b.exec (.write oid d e q)).1 with
    | error err => exact .refl _
    | ok u =>
      show Slot.Le _ (if p = q then .written d else b.slotAt oid p)
      -- the position that is written was unwritten before
      by_cases hpq : p = q
      · subst hpq
        rw [slotAt_of_write_ok hr, if_pos rfl]
        exact .write d
      · rw [if_neg hpq]
        exact .refl _
  | fill e q =>
    cases hr : (b.exec (.fill oid e q)).1 with
    | error err => exact .refl _
    | ok u =>
      show Slot.Le _ (if p = q then .invalid else b.slotAt oid p)
      split
      · exact Slot.Le.to_invalid _
      · exact .refl _
  | trim e q l f =>
    cases hr : (b.exec (.trim oid e q l f)).1 with
    | error err => exact .refl _
    | ok u =>
      show Slot.Le _ (if LogObject.TrimCovers q l p then .invalid else b.slotAt oid p)
      split
      · exact Slot.Le.to_invalid _
      · exact .refl _
  | maxPos => exact .refl _

/-- A written position stays written until a trim that covers it returns 0. -/
theorem slotAt_exec_written {oid : String} {h : List (Done ν)} {b : RAMBackend ν}
    (hi : SessionInv oid h b) {α : Type} {c : Call ν α} (hc : OnObject oid c)
    (hok : TrimFullOk h c) {p : Nat} {d : String} (hd : b.slotAt oid p = .written d) :
    (b.exec c).2.slotAt oid p = .written d ∧ ¬ Done.trims p ⟨c, (b.exec c).1⟩ ∨
    (b.exec c).2.slotAt oid p = .invalid ∧ Done.trims p ⟨c, (b.exec c).1⟩ := by
  rw [slotAt_exec hi hc hok, hd]
  cases hc with
  | «seal» e => exact Or.inl ⟨rfl, id⟩
  | read e q => exact Or.inl ⟨rfl, id⟩
  | write d' e q =>
    refine Or.inl ⟨?_, id⟩
    cases hr : (b.exec (.write oid d' e q)).1 with
    | error err => rfl
    | ok u =>
      have hpq : p ≠ q := by
        rintro rfl
        rw [slotAt_of_write_ok hr] at hd
        cases hd
      exact if_neg hpq
  | fill e q =>
    refine Or.inl ⟨?_, id⟩
    cases hr : (b.exec (.fill oid e q)).1 with
    | error err => rfl
    | ok u =>
      have hpq : p ≠ q := by
        rintro rfl
        exact slotAt_of_fill_ok hr d hd
      exact if_neg hpq
  | trim e q l f =>
    cases hr : (b.exec (.trim oid e q l f)).1 with
    | error err => exact Or.inl ⟨rfl, id⟩
    | ok u =>
      by_cases hcov : LogObject.TrimCovers q l p
      · exact Or.inr ⟨if_pos hcov, hcov⟩
      · exact Or.inl ⟨if_neg hcov, hcov⟩
  | maxPos => exact Or.inl ⟨rfl, id⟩

/-- **Read back**: after a successful write the position holds its data exactly until a trim
    that covers it returned 0, and is invalid from then on. -/
theorem Session.written {oid : String} {b₀ b : RAMBackend ν} {h : List (Done ν)}
    (hf : FreshObject oid b₀) (hs : Session oid [] b₀ h b) {d : String} {e p : Nat}
    {h₁ h₂ : List (Done ν)} (heq : h = h₁ ++ (⟨.write oid d e p, .ok ()⟩ : Done ν) :: h₂) :
    ((∀ x ∈ h₂, ¬ x.trims p) ∧ b.slotAt oid p = .written d) ∨
    ((∃ x ∈ h₂, x.trims p) ∧ b.slotAt oid p = .invalid) := by
  induction hs generalizing h₂ with
  | start => simp at heq
  | @call h b α c hs hc hok ih =>
    have hi : SessionInv oid h b := Session.inv (SessionInv.of_fresh hf) hs
    -- the last call of the session is the write itself or one of the calls after it
    rcases List.eq_nil_or_concat h₂ with rfl | ⟨h₂', x, rfl⟩
    · obtain ⟨-, hx⟩ := List.append_inj' heq rfl
      refine Or.inl ⟨fun x hx => absurd hx (by simp), ?_⟩
      rw [slotAt_exec hi hc hok, (List.cons.inj hx).1]
      exact if_pos rfl
    · rw [List.concat_eq_append, ← List.cons_append, ← List.append_assoc] at heq
      rw [List.concat_eq_append]
      obtain ⟨hh, hx⟩ := List.append_inj' heq rfl
      cases (List.cons.inj hx).1
      rcases ih hh with ⟨hno, hd⟩ | ⟨⟨y, hy, hty⟩, hinv⟩
      · rcases slotAt_exec_written hi hc hok hd with ⟨hd', hnt⟩ | ⟨hinv, ht⟩
        · refine Or.inl ⟨?_, hd'⟩
          intro y hy
          rcases List.mem_append.mp hy with hy | hy
          · exact hno y hy
          · rw [List.mem_singleton.mp hy]
            exact hnt
        · exact Or.inr ⟨⟨_, List.mem_append_right _ (List.mem_singleton_self _), ht⟩, hinv⟩
      · refine Or.inr ⟨⟨y, List.mem_append_left _ hy, hty⟩, ?_⟩
        have hle := slotAt_exec_le hi hc hok p
        rw [hinv] at hle
        exact hle.eq_invalid

theorem Session.write_mem {oid : String} {b₀ b : RAMBackend ν} {h : List (Done ν)}
    (hf : FreshObject oid b₀) (hs : Session oid [] b₀ h b) {d : String} {e p : Nat}
    (hmem : (⟨.write oid d e p, .ok ()⟩ : Done ν) ∈ h) : b.slotAt oid p ≠ .unwritten := by
  obtain ⟨h₁, h₂, heq⟩ := List.append_of_mem hmem
  rcases hs.written hf heq with ⟨-, hd⟩ | ⟨-, hinv⟩
  · rw [hd]
    exact Slot.noConfusion
  · rw [hinv]
    exact Slot.noConfusion

/-- No object is ever created under the empty name. -/
theorem Session.logAt_empty {b₀ b : RAMBackend ν} {h : List (Done ν)}
    (hf : FreshObject "" b₀) (hs : Session "" [] b₀ h b) : b.logAt "" = none := by
  induction hs with
  | start => simp [RAMBackend.logAt, hf.unbound]
  | call c _ hc _ ih =>
    have hsame : ∀ {α : Type} {c : Call ν α}, OnObject "" c → ∀ b : RAMBackend ν,
        (b.exec c).2 = b := by
      intro α c hc b
      cases hc with
      | «seal» e => simp [RAMBackend.exec, RAMBackend.seal]
      | read e q => rfl
      | write d e q => simp [RAMBackend.exec, RAMBackend.write, RAMBackend.checkIo]
      | fill e q => simp [RAMBackend.exec, RAMBackend.fill, RAMBackend.checkIo]
      | trim e q l f => cases l <;> cases f <;> simp [RAMBackend.exec, RAMBackend.trim,
          RAMBackend.checkIo]
      | maxPos => rfl
    rw [hsame hc]
    exact ih

/-- `Read` with an epoch that is neither zero nor stale reports the slot. -/
theorem read_of_slotAt {oid : String} {b : RAMBackend ν} {e p : Nat} (ho : oid ≠ "")
    (he : e ≠ 0) (hle : b.epochAt oid ≤ e) (hs : b.slotAt oid p ≠ .unwritten) :
    b.read oid e p = match b.slotAt oid p with
      | .unwritten => .error .erange
      | .written data => .ok data
      | .invalid => .error .enodata := by
  cases hl : b.logAt oid with
  | none => exact absurd (by simp [RAMBackend.slotAt, hl]) hs
  | some o =>
    rw [RAMBackend.epochAt_of_logAt hl] at hle
    have hread := RAMBackend.read_of_checkIo (RAMBackend.checkIo_eq_ok.mpr ⟨ho, he, hl, hle⟩)
    cases hslot : o.slot p <;>
      simp [hread, LogObject.read_eq, RAMBackend.slotAt_of_logAt hl, hslot]

/-! ## Idempotence -/

namespace LogObject

/-- Filling again changes nothing. -/
theorem fill_fill (o : LogObject) (p : Nat) : (o.fill p).2.fill p = o.fill p := by
  cases hs : o.slot p with
  | unwritten =>
    have h1 : (o.fill p).1 = .ok () := by rw [fill_of_unwritten hs]
    have h2 : (o.fill p).2.slot p = .invalid := by rw [slot_fill hs, if_pos rfl]
    rw [fill_of_invalid h2, ← h1]
  | written d =>
    rw [fill_of_written hs]
    exact fill_of_written hs
  | invalid =>
    rw [fill_of_invalid hs]
    exact fill_of_invalid hs

theorem raiseTrimLimit_raiseTrimLimit (o : LogObject) (p : Nat) :
    (o.raiseTrimLimit p).raiseTrimLimit p = o.raiseTrimLimit p := by
  unfold raiseTrimLimit
  cases o.trimLimit <;> simp

theorem trimEntry_trimEntry (o : LogObject) (p : Nat) :
    (o.trimEntry p).trimEntry p = o.trimEntry p := by
  unfold trimEntry
  cases hl : o.entries.lookup p with
  | none => simp [junkEntry, AList.lookup_insert, AList.insert_insert]
  | some e => simp [AList.lookup_insert, AList.insert_insert]

theorem belowTrimLimit_trimEntry (o : LogObject) (p q : Nat) :
    (o.trimEntry p).belowTrimLimit q = o.belowTrimLimit q := by
  unfold trimEntry
  split <;> rfl

/-- Trimming again, with the same flags, changes nothing. -/
theorem trim_trim (o : LogObject) (p : Nat) (l f : Bool) (hlf : f = true → l = true) :
    (o.trim p l f).trim p l f = o.trim p l f := by
  cases l with
  | true =>
    cases f with
    | true =>
      simp only [trim, if_true]
      have h := raiseTrimLimit_raiseTrimLimit o p
      unfold raiseTrimLimit at h ⊢
      cases hl : o.trimLimit <;> simp
    | false => rw [trim_range, trim_range, raiseTrimLimit_raiseTrimLimit]
  | false =>
    cases f with
    | true => exact absurd (hlf rfl) (by simp)
    | false =>
      unfold trim
      simp only [Bool.false_eq_true, if_false]
      cases hb : o.belowTrimLimit p with
      | true => simp [hb]
      | false => simp [belowTrimLimit_trimEntry, hb, trimEntry_trimEntry]

end LogObject

theorem checkIo_setLog {oid : String} {b : RAMBackend ν} {e : Nat} {o n : LogObject}
    (h : b.checkIo oid e = .ok o) (heq : n.epoch = o.epoch) :
    (b.setLog oid n).checkIo oid e = .ok n := by
  have ⟨ho, he, _, hle⟩ := RAMBackend.checkIo_eq_ok.mp h
  exact RAMBackend.checkIo_eq_ok.mpr ⟨ho, he, RAMBackend.logAt_setLog .., heq ▸ hle⟩

/-- **Fill is idempotent.** -/
theorem fill_idem (b : RAMBackend ν) (oid : String) (e p : Nat) :
    (b.fill oid e p).2.fill oid e p = b.fill oid e p := by
  rcases b.fill_cases oid e p with ⟨err, -, h⟩ | ⟨o, d, -, -, h⟩ | ⟨o, hio, hs, h⟩ |
    ⟨o, hio, hs, h⟩ <;> rw [h]
  · exact h
  · exact h
  · have hio' := checkIo_setLog hio (n := o) rfl
    simp [RAMBackend.fill, hio', LogObject.fill_of_invalid hs, RAMBackend.setLog_setLog]
  · have hio' := checkIo_setLog hio (n := (o.fill p).2) (LogObject.epoch_fill o p)
    have hok : (o.fill p).1 = .ok () := by rw [LogObject.fill_of_unwritten hs]
    simp only [RAMBackend.fill, hio', LogObject.fill_fill]
    cases ho : o.fill p with
    | mk r o' =>
      rw [ho] at hok
      cases hok
      simp [RAMBackend.setLog_setLog]

/-- **Trim is idempotent.** -/
theorem trim_idem (b : RAMBackend ν) (oid : String) (e p : Nat) (l f : Bool) :
    (b.trim oid e p l f).2.trim oid e p l f = b.trim oid e p l f := by
  rcases b.trim_cases oid e p l f with ⟨-, -, h⟩ | ⟨err, -, h⟩ | ⟨o, hio, hlf, h⟩ <;> rw [h]
  · exact h
  · exact h
  · have hio' := checkIo_setLog hio (n := o.trim p l f) (LogObject.epoch_trim o p l f)
    have hflags : (f && !l) = false := by
      cases f with
      | false => rfl
      | true => simp [hlf rfl]
    simp [RAMBackend.trim, hio', hflags, LogObject.trim_trim o p l f hlf,
      RAMBackend.setLog_setLog]

end ZLog
