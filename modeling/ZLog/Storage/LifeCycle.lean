import ZLog.Storage.Session

/-!
# The life cycle of a RAM log object

The main result collects what a log object guarantees to the callers of a session: its epoch
never decreases and fences older callers, a position is written at most once and moves only
forward through its life cycle, fills and trims are idempotent, and a range trim cannot be told
apart from trimming the positions one by one.
-/

namespace ZLog

variable {ν : Type}

/-! ## Range trims

Two states of an object that show the same slots and the same epoch answer every later entry
call alike.  A range trim and the single-position trims it stands for lead to two such
states. -/

/-- The calls go on a session with history `h` in state `b`. -/
def Continues (oid : String) (h : List (Done ν)) (b : RAMBackend ν) : List (AnyCall ν) → Prop
  | [] => True
  | ⟨_, c⟩ :: cs =>
    OnObject oid c ∧ TrimFullOk h c ∧ Continues oid (h ++ [⟨c, (b.exec c).1⟩]) (b.exec c).2 cs

/-- Single-position trims of the positions below `n`, in ascending order. -/
def singleTrims (oid : String) (epoch n : Nat) : List (AnyCall ν) :=
  (List.range n).map (fun q => ⟨_, .trim oid epoch q false false⟩)

/-- The call is a `Read`, a `Write` or a `Fill`. -/
def Done.isEntryIo : Done ν → Bool
  | ⟨.read _ _ _, _⟩ => true
  | ⟨.write _ _ _ _, _⟩ => true
  | ⟨.fill _ _ _, _⟩ => true
  | _ => false

/-- Two objects that no entry call can tell apart. -/
structure ObjectTwin (h : List (Done ν)) (o₁ o₂ : LogObject) : Prop where
  epoch : o₁.epoch = o₂.epoch
  slots : ∀ p, o₁.slot p = o₂.slot p
  keys₁ : ∀ k ∈ o₁.entries, k ∈ touched h
  keys₂ : ∀ k ∈ o₂.entries, k ∈ touched h

/-- Two backends that differ at most in the representation of the object `oid`. -/
structure Twin (oid : String) (h : List (Done ν)) (b₁ b₂ : RAMBackend ν) : Prop where
  stores : b₁.blackhole = b₂.blackhole
  object : (b₁.objects.lookup oid = b₂.objects.lookup oid ∧ b₁.logAt oid = none) ∨
    ∃ o₁ o₂, b₁.logAt oid = some o₁ ∧ b₂.logAt oid = some o₂ ∧ ObjectTwin h o₁ o₂

theorem ObjectTwin.mono {h : List (Done ν)} {o₁ o₂ : LogObject} (t : ObjectTwin h o₁ o₂)
    (d : Done ν) : ObjectTwin (h ++ [d]) o₁ o₂ := by
  refine ⟨t.epoch, t.slots, ?_, ?_⟩
  · intro k hk
    rw [touched_append]
    exact List.mem_append_left _ (t.keys₁ k hk)
  · intro k hk
    rw [touched_append]
    exact List.mem_append_left _ (t.keys₂ k hk)

theorem Twin.mono {oid : String} {h : List (Done ν)} {b₁ b₂ : RAMBackend ν}
    (t : Twin oid h b₁ b₂) (d : Done ν) : Twin oid (h ++ [d]) b₁ b₂ := by
  refine ⟨t.stores, ?_⟩
  rcases t.object with h | ⟨o₁, o₂, h₁, h₂, ht⟩
  · exact Or.inl h
  · exact Or.inr ⟨o₁, o₂, h₁, h₂, ht.mono d⟩

theorem Twin.setLog {oid : String} {h : List (Done ν)} {b₁ b₂ : RAMBackend ν}
    (t : Twin oid h b₁ b₂) {d : Done ν} {o₁ o₂ : LogObject} (ht : ObjectTwin (h ++ [d]) o₁ o₂) :
    Twin oid (h ++ [d]) (b₁.setLog oid o₁) (b₂.setLog oid o₂) :=
  ⟨t.stores, Or.inr ⟨o₁, o₂, RAMBackend.logAt_setLog .., RAMBackend.logAt_setLog .., ht⟩⟩

/-- The checks pass for both or fail alike for both. -/
theorem Twin.checkIo {oid : String} {h : List (Done ν)} {b₁ b₂ : RAMBackend ν}
    (t : Twin oid h b₁ b₂) (e : Nat) :
    (∃ err, b₁.checkIo oid e = .error err ∧ b₂.checkIo oid e = .error err) ∨
    ∃ o₁ o₂, b₁.checkIo oid e = .ok o₁ ∧ b₂.checkIo oid e = .ok o₂ ∧ ObjectTwin h o₁ o₂ := by
  -- the object is the same on both sides, or there are two with equal slots and epochs
  rcases t.object with ⟨hl, hn⟩ | ⟨o₁, o₂, h₁, h₂, ht⟩
  · have heq : b₁.checkIo oid e = b₂.checkIo oid e := by
      simp [RAMBackend.checkIo, RAMBackend.checkEpoch, hl]
    cases hc : b₁.checkIo oid e with
    | error err => exact Or.inl ⟨err, rfl, heq ▸ hc⟩
    | ok o =>
      rw [(RAMBackend.checkIo_eq_ok.mp hc).2.2.1] at hn
      cases hn
  · rw [RAMBackend.logAt_eq_some] at h₁ h₂
    have hep := ht.epoch
    unfold RAMBackend.checkIo RAMBackend.checkEpoch
    rw [h₁, h₂]
    -- the checks in the order of the source
    by_cases ho : oid = ""
    · exact Or.inl ⟨.einval, by simp [ho], by simp [ho]⟩
    · by_cases he : e = 0
      · exact Or.inl ⟨.einval, by simp [he], by simp [he]⟩
      · by_cases hlt : e < o₂.epoch
        · exact Or.inl ⟨.espipe, by simp [ho, he, hep, hlt], by simp [ho, he, hlt]⟩
        · exact Or.inr ⟨o₁, o₂, by simp [ho, he, hep, hlt], by simp [ho, he, hlt], ht⟩

/-- Setting the entry of a position that is unwritten in both. -/
private theorem ObjectTwin.touch {h : List (Done ν)} {o₁ o₂ o₁' o₂' : LogObject} {p : Nat}
    {d : Done ν} (t : ObjectTwin h o₁ o₂) (hd : d.touches = some p)
    (hep : o₁'.epoch = o₁.epoch ∧ o₂'.epoch = o₂.epoch) (hs : ∀ q, o₁'.slot q = o₂'.slot q)
    (hk₁ : ∀ k ∈ o₁'.entries, k = p ∨ k ∈ o₁.entries)
    (hk₂ : ∀ k ∈ o₂'.entries, k = p ∨ k ∈ o₂.entries) : ObjectTwin (h ++ [d]) o₁' o₂' := by
  refine ⟨by rw [hep.1, hep.2, t.epoch], hs, ?_, ?_⟩
  · intro k hk
    rw [touched_append, hd, List.mem_append]
    -- the position that the call touched, or one of before
    rcases hk₁ k hk with rfl | hk
    · exact Or.inr (by simp)
    · exact Or.inl (t.keys₁ k hk)
  · intro k hk
    rw [touched_append, hd, List.mem_append]
    rcases hk₂ k hk with rfl | hk
    · exact Or.inr (by simp)
    · exact Or.inl (t.keys₂ k hk)

/-- One call on twins: they stay twins, and an entry call gets the same answer from both. -/
theorem Twin.exec {oid : String} {h : List (Done ν)} {b₁ b₂ : RAMBackend ν}
    (t : Twin oid h b₁ b₂) {α : Type} {c : Call ν α} (hc : OnObject oid c)
    (hok : TrimFullOk h c) :
    Twin oid (h ++ [⟨c, (b₂.exec c).1⟩]) (b₁.exec c).2 (b₂.exec c).2 ∧
      (Done.isEntryIo ⟨c, (b₂.exec c).1⟩ = true → (b₁.exec c).1 = (b₂.exec c).1) := by
  cases hc with
  | «seal» e =>
    refine ⟨?_, fun h => by cases h⟩
    show Twin oid _ (b₁.seal oid e).2 (b₂.seal oid e).2
    -- a seal looks at the epoch only
    rcases t.object with ⟨hl, hn⟩ | ⟨o₁, o₂, h₁, h₂, ht⟩
    · unfold RAMBackend.seal
      rw [← hl]
      by_cases ho : oid = ""
      · simpa [ho] using t.mono _
      · by_cases he : e = 0
        · simpa [he] using t.mono _
        · simp only [ho, he, if_false]
          cases hlk : b₁.objects.lookup oid with
          -- both sides make the same new object
          | none =>
            exact t.setLog ⟨rfl, fun _ => rfl, fun k hk => absurd hk (AList.notMem_empty k),
              fun k hk => absurd hk (AList.notMem_empty k)⟩
          | some x =>
            cases x with
            | link hoid => exact t.mono _
            | projection proj => exact t.mono _
            | log o =>
              rw [RAMBackend.logAt_eq_some.mpr hlk] at hn
              cases hn
    · rw [RAMBackend.logAt_eq_some] at h₁ h₂
      unfold RAMBackend.seal
      rw [h₁, h₂]
      by_cases ho : oid = ""
      · simpa [ho] using t.mono _
      · by_cases he : e = 0
        · simpa [he] using t.mono _
        · by_cases hle : e ≤ o₂.epoch
          · simpa [ho, he, ht.epoch, hle] using t.mono _
          · simp only [ho, he, if_false, ht.epoch, hle]
            exact t.setLog ⟨rfl, ht.slots, (ht.mono _).keys₁, (ht.mono _).keys₂⟩
  | read e q =>
    refine ⟨t.mono _, fun _ => ?_⟩
    show b₁.read oid e q = b₂.read oid e q
    -- a read depends on the slot
    rcases t.checkIo e with ⟨err, h₁, h₂⟩ | ⟨o₁, o₂, h₁, h₂, ht⟩
    · simp [RAMBackend.read, h₁, h₂]
    · rw [RAMBackend.read_of_checkIo h₁, RAMBackend.read_of_checkIo h₂, LogObject.read_eq,
        LogObject.read_eq, ht.slots]
  | write d e q =>
    show Twin oid (h ++ [⟨.write oid d e q, (b₂.write oid d e q).1⟩]) (b₁.write oid d e q).2
      (b₂.write oid d e q).2 ∧ (_ → (b₁.write oid d e q).1 = (b₂.write oid d e q).1)
    unfold RAMBackend.write
    rcases t.checkIo e with ⟨err, h₁, h₂⟩ | ⟨o₁, o₂, h₁, h₂, ht⟩
    · rw [h₁, h₂]
      exact ⟨t.mono _, fun _ => rfl⟩
    · rw [h₁, h₂]
      dsimp only
      rw [t.stores]
      -- a write goes through on both sides or on none
      by_cases hu : o₁.slot q = .unwritten
      · have hu₂ : o₂.slot q = .unwritten := ht.slots q ▸ hu
        -- both sides store the same, also with `blackhole`
        generalize (if b₂.blackhole then "" else d) = d'
        have hw₁ := LogObject.write_of_unwritten hu d'
        have hw₂ := LogObject.write_of_unwritten hu₂ d'
        have htw : ObjectTwin (h ++ [(⟨.write oid d e q, .ok ()⟩ : Done ν)])
            (o₁.write d' q).2 (o₂.write d' q).2 :=
          ht.touch rfl ⟨LogObject.epoch_write .., LogObject.epoch_write ..⟩
            (fun p => by rw [LogObject.slot_write hu, LogObject.slot_write hu₂, ht.slots])
            (fun k hk => (LogObject.mem_entries_write hu d' k).mp hk)
            (fun k hk => (LogObject.mem_entries_write hu₂ d' k).mp hk)
        rw [hw₁, hw₂] at htw ⊢
        exact ⟨t.setLog htw, fun _ => rfl⟩
      · have hu₂ : o₂.slot q ≠ .unwritten := ht.slots q ▸ hu
        rw [LogObject.write_of_ne_unwritten hu, LogObject.write_of_ne_unwritten hu₂]
        exact ⟨t.mono _, fun _ => rfl⟩
  | fill e q =>
    show Twin oid (h ++ [⟨.fill oid e q, (b₂.fill oid e q).1⟩]) (b₁.fill oid e q).2
      (b₂.fill oid e q).2 ∧ (_ → (b₁.fill oid e q).1 = (b₂.fill oid e q).1)
    unfold RAMBackend.fill
    rcases t.checkIo e with ⟨err, h₁, h₂⟩ | ⟨o₁, o₂, h₁, h₂, ht⟩
    · rw [h₁, h₂]
      exact ⟨t.mono _, fun _ => rfl⟩
    · rw [h₁, h₂]
      dsimp only
      -- a fill depends on the slot on both sides
      cases hs : o₁.slot q with
      | unwritten =>
        have hs₂ : o₂.slot q = .unwritten := ht.slots q ▸ hs
        have hf₁ := LogObject.fill_of_unwritten hs
        have hf₂ := LogObject.fill_of_unwritten hs₂
        have htw : ObjectTwin (h ++ [(⟨.fill oid e q, .ok ()⟩ : Done ν)])
            (o₁.fill q).2 (o₂.fill q).2 :=
          ht.touch rfl ⟨LogObject.epoch_fill .., LogObject.epoch_fill ..⟩
            (fun p => by rw [LogObject.slot_fill hs, LogObject.slot_fill hs₂, ht.slots])
            (fun k hk => (LogObject.mem_entries_fill hs k).mp hk)
            (fun k hk => (LogObject.mem_entries_fill hs₂ k).mp hk)
        rw [hf₁, hf₂] at htw ⊢
        exact ⟨t.setLog htw, fun _ => rfl⟩
      | written d =>
        have hs₂ : o₂.slot q = .written d := ht.slots q ▸ hs
        rw [LogObject.fill_of_written hs, LogObject.fill_of_written hs₂]
        exact ⟨t.mono _, fun _ => rfl⟩
      | invalid =>
        have hs₂ : o₂.slot q = .invalid := ht.slots q ▸ hs
        rw [LogObject.fill_of_invalid hs, LogObject.fill_of_invalid hs₂]
        exact ⟨t.setLog (ht.mono _), fun _ => rfl⟩
  | trim e q l f =>
    refine ⟨?_, fun h => by cases h⟩
    show Twin oid (h ++ [⟨.trim oid e q l f, (b₂.trim oid e q l f).1⟩]) (b₁.trim oid e q l f).2
      (b₂.trim oid e q l f).2
    unfold RAMBackend.trim
    by_cases hfl : (f && !l) = true
    · simp only [hfl, if_true]
      exact t.mono _
    · -- the trim is refused on both sides
      have hlf : f = true → l = true := by
        intro hf
        simpa [hf] using hfl
      rw [if_neg hfl, if_neg hfl]
      rcases t.checkIo e with ⟨err, h₁, h₂⟩ | ⟨o₁, o₂, h₁, h₂, ht⟩
      · rw [h₁, h₂]
        exact t.mono _
      · rw [h₁, h₂]
        refine t.setLog ⟨?_, ?_, ?_, ?_⟩
        · rw [LogObject.epoch_trim, LogObject.epoch_trim, ht.epoch]
        · -- a full trim covers the entries of both sides
          have hfull : ∀ o : LogObject, (∀ k ∈ o.entries, k ∈ touched h) →
              f = true → ∀ k ∈ o.entries, k ≤ q := by
            intro o ho hf k hk
            subst hf
            exact hok k (ho k hk)
          intro p
          rw [LogObject.slot_trim hlf (hfull o₁ ht.keys₁), LogObject.slot_trim hlf
            (hfull o₂ ht.keys₂), ht.slots]
        · intro k hk
          rw [touched_append, List.mem_append]
          rcases LogObject.mem_entries_trim hk with hk | ⟨rfl, rfl⟩
          · exact Or.inl (ht.keys₁ k hk)
          · exact Or.inr (by simp [Done.touches])
        · intro k hk
          rw [touched_append, List.mem_append]
          rcases LogObject.mem_entries_trim hk with hk | ⟨rfl, rfl⟩
          · exact Or.inl (ht.keys₂ k hk)
          · exact Or.inr (by simp [Done.touches])
  | maxPos => exact ⟨t.mono _, fun h => by cases h⟩

/-- **Twins answer alike**, over every continuation of the session. -/
theorem Twin.answers {oid : String} {h : List (Done ν)} {b₁ b₂ : RAMBackend ν}
    (t : Twin oid h b₁ b₂) (cs : List (AnyCall ν)) (hcs : Continues oid h b₂ cs) :
    (answers b₁ cs).filter Done.isEntryIo = (answers b₂ cs).filter Done.isEntryIo := by
  induction cs generalizing h b₁ b₂ with
  | nil => rfl
  | cons c cs ih =>
    obtain ⟨α, c⟩ := c
    obtain ⟨hc, hok, hrest⟩ := hcs
    obtain ⟨t', heq⟩ := t.exec hc hok
    have ih' := ih t' hrest
    simp only [ZLog.answers]
    cases hio : Done.isEntryIo ⟨c, (b₂.exec c).1⟩ with
    | true =>
      rw [heq hio]
      simp [hio, ih']
    | false =>
      -- the calls that are no entry io are left out on both sides
      have hio₁ : Done.isEntryIo ⟨c, (b₁.exec c).1⟩ = false := by
        cases hc <;> first | rfl | cases hio
      simp [hio, hio₁, ih']

/-- The calls of a continuation, with their answers, extend the session. -/
theorem Session.of_continues {oid : String} {h : List (Done ν)} {b : RAMBackend ν}
    (cs : List (AnyCall ν)) (hcs : Continues oid h b cs) :
    Session oid h b (h ++ answers b cs) (after b cs) := by
  have hgen : ∀ (cs : List (AnyCall ν)) (h' : List (Done ν)) (b' : RAMBackend ν),
      Session oid h b h' b' → Continues oid h' b' cs →
      Session oid h b (h' ++ answers b' cs) (after b' cs) := by
    intro cs
    induction cs with
    | nil =>
      intro h' b' hs _
      simpa [answers, after] using hs
    | cons c cs ih =>
      rintro h' b' hs ⟨hc, hok, hrest⟩
      simpa [answers, after] using ih _ _ (.call c.2 hs hc hok) hrest
  exact hgen cs h b .start hcs

theorem answers_append (b : RAMBackend ν) (cs ds : List (AnyCall ν)) :
    answers b (cs ++ ds) = answers b cs ++ answers (after b cs) ds := by
  induction cs generalizing b with
  | nil => rfl
  | cons c cs ih => simp [answers, after, ih]

theorem after_append (b : RAMBackend ν) (cs ds : List (AnyCall ν)) :
    after b (cs ++ ds) = after (after b cs) ds := by
  induction cs generalizing b with
  | nil => rfl
  | cons c cs ih => simp [after, ih]

theorem singleTrims_succ (oid : String) (e n : Nat) :
    (singleTrims oid e (n + 1) : List (AnyCall ν)) =
      singleTrims oid e n ++ [⟨_, .trim oid e n false false⟩] := by
  simp [singleTrims, List.range_succ]

/-- When the checks fail, so does every single-position trim. -/
theorem after_singleTrims_of_error {oid : String} {b : RAMBackend ν} {e : Nat} {err : Errno}
    (hck : b.checkIo oid e = .error err) (n : Nat) : after b (singleTrims oid e n) = b := by
  induction n with
  | zero => rfl
  | succ n ih =>
    rw [singleTrims_succ, after_append, ih]
    simp [after, RAMBackend.exec, RAMBackend.trim, hck]

/-- When the checks pass, the single-position trims invalidate the positions below `n` one
    after the other. -/
theorem after_singleTrims {oid : String} {h : List (Done ν)} {b : RAMBackend ν}
    (hi : SessionInv oid h b) {e : Nat} {o : LogObject} (hck : b.checkIo oid e = .ok o)
    (n : Nat) :
    ∃ o', (after b (singleTrims oid e n)).checkIo oid e = .ok o' ∧ o'.epoch = o.epoch ∧
      (after b (singleTrims oid e n)).blackhole = b.blackhole ∧
      (∀ p, o'.slot p = if p < n then .invalid else o.slot p) ∧
      ∀ k ∈ o'.entries, k ∈ touched (h ++ answers b (singleTrims oid e n)) := by
  -- by the number of single trims
  induction n with
  | zero =>
    refine ⟨o, hck, rfl, rfl, fun p => by simp, ?_⟩
    intro k hk
    simpa [singleTrims, answers] using hi.keys o (RAMBackend.checkIo_eq_ok.mp hck).2.2.1 k hk
  | succ n ih =>
    obtain ⟨o', hck', hep, hst, hslots, hkeys⟩ := ih
    rw [singleTrims_succ, after_append, answers_append]
    generalize after b (singleTrims oid e n) = b' at hck' hst
    -- the next trim passes the same check
    have htrim : b'.trim oid e n false false = (.ok (), b'.setLog oid (o'.trim n false false)) := by
      simp [RAMBackend.trim, hck']
    have hafter : after b' [⟨_, .trim oid e n false false⟩] =
        b'.setLog oid (o'.trim n false false) := by
      simp [after, RAMBackend.exec, htrim]
    have hans : answers b' [⟨_, .trim oid e n false false⟩] =
        [(⟨.trim oid e n false false, .ok ()⟩ : Done ν)] := by
      simp [answers, RAMBackend.exec, htrim]
    rw [hafter, hans, ← List.append_assoc, touched_append]
    refine ⟨o'.trim n false false, checkIo_setLog hck' (LogObject.epoch_trim ..), ?_, hst, ?_, ?_⟩
    · rw [LogObject.epoch_trim, hep]
    · intro p
      rw [LogObject.slot_trim_single, hslots]
      -- the position of this trim, the earlier ones, and the rest
      by_cases hpn : p = n
      · simp [hpn]
      · by_cases hlt : p < n
        · simp [hpn, hlt, Nat.lt_succ_of_lt hlt]
        · simp [hpn, hlt, show ¬ p < n + 1 by omega]
    · intro k hk
      rw [List.mem_append]
      rcases LogObject.mem_entries_trim hk with hk | ⟨rfl, -⟩
      · exact Or.inl (hkeys k hk)
      · exact Or.inr (by simp [Done.touches])

/-- A range trim and the single-position trims it stands for lead to twins. -/
theorem twin_of_range_trim {oid : String} {h : List (Done ν)} {b : RAMBackend ν}
    (hi : SessionInv oid h b) (e x : Nat) (f : Bool)
    (hok : TrimFullOk h (.trim oid e x true f : Call ν _)) :
    Twin oid (h ++ answers b (singleTrims oid e (x + 1))) (b.trim oid e x true f).2
      (after b (singleTrims oid e (x + 1))) := by
  rcases b.trim_cases oid e x true f with ⟨-, hl, -⟩ | ⟨err, hck, htr⟩ | ⟨o, hck, hlf, htr⟩
  · cases hl
  · rw [htr, after_singleTrims_of_error hck]
    refine ⟨rfl, ?_⟩
    cases hl : b.logAt oid with
    | none => exact Or.inl ⟨rfl, rfl⟩
    | some o =>
      have hk : ∀ k ∈ o.entries, k ∈ touched (h ++ answers b (singleTrims oid e (x + 1))) := by
        intro k hk
        rw [touched, List.filterMap_append]
        exact List.mem_append_left _ (hi.keys o hl k hk)
      exact Or.inr ⟨o, o, rfl, rfl, rfl, fun _ => rfl, hk, hk⟩
  · obtain ⟨o', hck', hep, hst, hslots, hkeys⟩ := after_singleTrims hi hck (x + 1)
    have ho := (RAMBackend.checkIo_eq_ok.mp hck).2.2.1
    rw [htr]
    refine ⟨hst.symm, Or.inr ⟨_, o', RAMBackend.logAt_setLog ..,
      (RAMBackend.checkIo_eq_ok.mp hck').2.2.1, ?_, ?_, ?_, hkeys⟩⟩
    · rw [LogObject.epoch_trim, hep]
    · intro p
      rw [hslots, LogObject.slot_trim hlf (keys_le_of_trimFullOk hi ho hok)]
      simp only [LogObject.TrimCovers, if_true, Nat.lt_succ_iff]
    · intro k hk
      rw [touched, List.filterMap_append]
      rcases LogObject.mem_entries_trim hk with hk | ⟨-, hl⟩
      · exact List.mem_append_left _ (hi.keys o ho k hk)
      · cases hl

/-! ## The life cycle -/

/-- What a log object guarantees after a session with history `h` that ended in state `b`. -/
structure LifeCycle (oid : String) (h : List (Done ν)) (b : RAMBackend ν) : Prop where
  /-- The stored epoch never decreases. -/
  epoch_le : ∀ {α : Type} (c : Call ν α), OnObject oid c →
    b.epochAt oid ≤ (b.exec c).2.epochAt oid
  /-- Once `Seal(e)` returned 0 or `-ESPIPE`, an entry call with a smaller epoch neither
      returns 0 nor changes anything. -/
  fenced : ∀ (e : Nat) (r : Ret Unit), (⟨.seal oid e, r⟩ : Done ν) ∈ h →
    r = .ok () ∨ r = .error .espipe →
    ∀ {α : Type} (c : Call ν α) (e' : Nat), OnObject oid c → c.ioEpoch = some e' → e' < e →
      Done.ok ⟨c, (b.exec c).1⟩ = false ∧ (b.exec c).2 = b
  /-- A position only moves from unwritten to written to invalid, or from unwritten to
      invalid. -/
  forward : ∀ {α : Type} (c : Call ν α), OnObject oid c → TrimFullOk h c →
    ∀ p, Slot.Le (b.slotAt oid p) ((b.exec c).2.slotAt oid p)
  /-- `Write` returns 0 only on an unwritten position, which it writes, and only once. -/
  writeOnce : ∀ (d : String) (e p : Nat), (b.write oid d e p).1 = .ok () →
    b.slotAt oid p = .unwritten ∧ (b.write oid d e p).2.slotAt oid p = .written d ∧
      ∀ d' e', (⟨.write oid d' e' p, .ok ()⟩ : Done ν) ∉ h
  /-- After `Write(p, d)` returned 0, a `Read(p)` that is not stale returns `d` until a trim
      that covers `p` returned 0, and `-ENODATA` for ever after. -/
  readBack : ∀ (h₁ h₂ : List (Done ν)) (d : String) (e p : Nat),
    h = h₁ ++ (⟨.write oid d e p, .ok ()⟩ : Done ν) :: h₂ →
    ∀ e', e' ≠ 0 → b.epochAt oid ≤ e' →
      ((∀ x ∈ h₂, ¬ x.trims p) → b.read oid e' p = .ok d) ∧
      ((∃ x ∈ h₂, x.trims p) → b.read oid e' p = .error .enodata)
  /-- `Fill` never changes a written position. -/
  fillKeeps : ∀ (e p q : Nat) (d : String), b.slotAt oid p = .written d →
    (b.fill oid e q).2.slotAt oid p = .written d
  /-- `Fill` is idempotent. -/
  fillTwice : ∀ e p : Nat, (b.fill oid e p).2.fill oid e p = b.fill oid e p
  /-- `Trim` is idempotent. -/
  trimTwice : ∀ (e p : Nat) (l f : Bool),
    (b.trim oid e p l f).2.trim oid e p l f = b.trim oid e p l f
  /-- A range trim at `x` and single-position trims of `0 .. x` cannot be told apart by later
      answers of `Read`, `Write` and `Fill`. -/
  rangeTrim : ∀ (e x : Nat) (f : Bool), TrimFullOk h (.trim oid e x true f : Call ν _) →
    ∀ cs : List (AnyCall ν),
      Continues oid (h ++ answers b (singleTrims oid e (x + 1)))
        (after b (singleTrims oid e (x + 1))) cs →
      (answers (b.trim oid e x true f).2 cs).filter Done.isEntryIo =
        (answers (after b (singleTrims oid e (x + 1))) cs).filter Done.isEntryIo

/-- **Write-once life cycle of a RAM log object**, after every session on a fresh object. -/
theorem ram_object_lifeCycle {oid : String} {b₀ b : RAMBackend ν} {h : List (Done ν)}
    (hf : FreshObject oid b₀) (hs : Session oid [] b₀ h b) : LifeCycle oid h b := by
  have hi : SessionInv oid h b := Session.inv (SessionInv.of_fresh hf) hs
  refine ⟨?_, ?_, ?_, ?_, ?_, ?_, ?_, ?_, ?_⟩
  · intro α c hc
    exact epochAt_exec_le b hc
  · intro e r hmem hr α c e' hc he' hlt
    exact exec_stale hc he' (lt_of_lt_of_le hlt (hs.sealed hmem hr))
  · intro α c hc hok p
    exact slotAt_exec_le hi hc hok p
  · intro d e p hw
    have hu := slotAt_of_write_ok hw
    refine ⟨hu, ?_, fun d' e' hmem => hs.write_mem hf hmem hu⟩
    have hnext := slotAt_exec hi (OnObject.write d e p) trivial p
    change (b.write oid d e p).2.slotAt oid p =
      Done.next p _ ⟨.write oid d e p, (b.write oid d e p).1⟩ at hnext
    rw [hnext, hw]
    exact if_pos rfl
  · intro h₁ h₂ d e p heq e' he' hle
    have hmem : (⟨.write oid d e p, .ok ()⟩ : Done ν) ∈ h := by simp [heq]
    have hne := hs.write_mem hf hmem
    have ho : oid ≠ "" := by
      rintro rfl
      cases hl : b.logAt "" with
      | none => exact hne (by simp [RAMBackend.slotAt, hl])
      | some o => exact absurd (hs.logAt_empty hf) (by simp [hl])
    have hread := read_of_slotAt ho he' hle hne
    rcases hs.written hf heq with ⟨hno, hd⟩ | ⟨hex, hinv⟩
    · rw [hd] at hread
      exact ⟨fun _ => hread, fun hex => hex.elim fun x hx => absurd hx.2 (hno x hx.1)⟩
    · rw [hinv] at hread
      obtain ⟨x, hx, hxt⟩ := hex
      exact ⟨fun hno => absurd hxt (hno x hx), fun _ => hread⟩
  · intro e p q d hd
    rcases slotAt_exec_written hi (OnObject.fill e q) trivial hd with ⟨h, -⟩ | ⟨-, h⟩
    · exact h
    · exact absurd h id
  · exact fill_idem b oid
  · exact trim_idem b oid
  · intro e x f hok cs hcs
    exact (twin_of_range_trim hi e x f hok).answers cs hcs

/-- The calls of a session that seals, writes and fully trims an object. -/
def objectTrimCalls : List (AnyCall Unit) :=
  [⟨_, .seal "o" 1⟩, ⟨_, .write "o" "a" 1 3⟩, ⟨_, .trim "o" 1 3 true true⟩]

theorem ram_object_lifeCycle_full_trim :
    LifeCycle "o" (answers {} objectTrimCalls) (after {} objectTrimCalls) := by
  refine ram_object_lifeCycle ⟨rfl, rfl⟩ (Session.of_continues (h := []) objectTrimCalls ?_)
  refine ⟨.seal 1, trivial, .write "a" 1 3, trivial, .trim 1 3 true true, ?_, trivial⟩
  intro q hq
  have htouched : touched (answers {} (objectTrimCalls.take 2)) = [3] := by decide
  have hq' : q ∈ touched (answers {} (objectTrimCalls.take 2)) := hq
  rw [htouched] at hq'
  exact (List.mem_singleton.mp hq').le

/-- Writing one position and reading it back. -/
def writeCalls : List (AnyCall Unit) := [⟨_, .seal "o" 1⟩, ⟨_, .write "o" "a" 1 3⟩]

/-- **With the option `blackhole`** the backend drops the data of a write that returns 0: the write
    is not read back. -/
theorem blackhole_drops_data :
    ∃ h b, Session "o" [] ({ blackhole := true } : RAMBackend Unit) h b ∧
      (⟨.write "o" "a" 1 3, .ok ()⟩ : Done Unit) ∈ h ∧ b.read "o" 1 3 = .ok "" ∧
      ¬ LifeCycle "o" h b := by
  have hcont : Continues "o" [] ({ blackhole := true } : RAMBackend Unit) writeCalls :=
    ⟨.seal 1, trivial, .write "a" 1 3, trivial, trivial⟩
  have hread : (after ({ blackhole := true } : RAMBackend Unit) writeCalls).read "o" 1 3 = .ok "" := by
    decide
  refine ⟨_, _, Session.of_continues writeCalls hcont, List.mem_cons_of_mem _ (List.mem_cons_self ..),
    hread, fun hlife => ?_⟩
  -- nothing was trimmed, so the life cycle promises the data
  have hback := (hlife.readBack [⟨.seal "o" 1, .ok ()⟩] [] "a" 1 3 rfl 1 (by decide) (by decide)).1
    fun x hx => absurd hx List.not_mem_nil
  rw [hread] at hback
  exact absurd (Except.ok.inj hback) (by decide)

end ZLog
