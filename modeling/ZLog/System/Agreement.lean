import ZLog.System.Records

/-!
# Agreement and immutability of positions

What clients can conclude from the results of their operations, whatever the other clients do.
A position is written by at most one append, its data never changes, it is readable until it is
trimmed, and filled or trimmed positions are never handed out.

## Main results

- `append_agreement`: all of this, for every reachable state.
-/

namespace ZLog

variable {u : Uuid} {name : String} {w w' : World} {a : Action} {x y : OpRecord}

/-- The operation appended `data` at position `p`. -/
def OpRecord.Appended (x : OpRecord) (data : String) (p : Nat) : Prop :=
  x.request = .append data ∧ x.result = .ok (.position p)

/-- The position of an append that returned is written or invalid. -/
theorem Inv.appended (hI : Inv u name w) (hx : w.Returned x) {d : String} {p : Nat}
    (h : x.Appended d p) :
    positionSlot u w.backend p = .written d ∨ positionSlot u w.backend p = .invalid := by
  have hok := hI.doneOk hx
  rw [h.1, h.2] at hok
  exact hok

/-- The position of an append was unwritten right before it returned. -/
theorem ReturnStep.unwritten (h : ReturnStep u name w w' a x) {d : String} {p : Nat}
    (hx : x.Appended d p) : positionSlot u w.backend p = .unwritten := by
  have hans := h.answer
  rw [hx.1, hx.2] at hans
  rcases hans with hans | ⟨p', hp', hu, -⟩
  · cases hans
  · cases hp'
    exact hu

/-- A returning append finds no settled position. -/
theorem ReturnStep.not_settled (h : ReturnStep u name w w' a x) {d : String} {p : Nat}
    (hx : x.Appended d p) {s : Slot} (hs : positionSlot u w.backend p = s) (hne : s ≠ .unwritten) :
    False := hne (hs.symm.trans (h.unwritten hx))

section

variable {options : Options} {host : Host} {w₀ : World}

/-! ## Pairs of operations -/

/-- No two appends return the same position. -/
theorem appended_unique (h₀ : World.init name u options host = some w₀)
    (h : Lib.Reaches World.step w₀ w) (hx : w.Returned x) (hy : w.Returned y) {d d' : String}
    {p : Nat} (hxa : x.Appended d p) (hya : y.Appended d' p) : x = y := by
  refine pairs_of_reaches (u := u) (P := fun _ x y => ∀ d d' p, x.Appended d p → y.Appended d' p →
    x = y) (fun _ _ _ _ _ _ _ h => h) ?_ (fun _ _ _ _ _ _ _ => rfl) h₀ h hx hy d d' p hxa hya
  intro v v' a x y hG hs hx hy
  have hno : ∀ d d' p, x.Appended d p → y.Appended d' p → False := by
    intro d d' p hxa hya
    rcases hG.toInv.appended hx hxa with hw | hi
    · exact hy.not_settled hya hw (by simp)
    · exact hy.not_settled hya hi (by simp)
  exact ⟨fun d d' p hxa hya => (hno d d' p hxa hya).elim,
    fun d d' p hya hxa => (hno d' d p hxa hya).elim⟩

/-- A read that returns data returns what was appended. -/
theorem read_eq_appended (h₀ : World.init name u options host = some w₀)
    (h : Lib.Reaches World.step w₀ w) (hx : w.Returned x) (hy : w.Returned y) {d d' : String}
    {p : Nat} (hxa : x.Appended d p) (hyr : y.request = .read p)
    (hyd : y.result = .ok (.data d')) : d' = d := by
  refine pairs_of_reaches (u := u) (P := fun _ x y => ∀ d d' p, x.Appended d p →
    y.request = .read p → y.result = .ok (.data d') → d' = d) (fun _ _ _ _ _ _ _ h => h) ?_ ?_
    h₀ h hx hy d d' p hxa hyr hyd
  · intro v v' a x y hG hs hx hy
    refine ⟨fun d d' p hxa hyr hyd => ?_, fun d d' p hya hxr hxd => ?_⟩
    · -- the read returns now
      have hans := hy.answer
      rw [hyr, hyd] at hans
      rcases hG.toInv.appended hx hxa with hw | hi
      · rw [Answer, hw] at hans
        cases hans
        rfl
      · rw [Answer, hi] at hans
        cases hans
    · -- the append returns now, but the data has been read
      exfalso
      have hok := hG.toInv.doneOk hx
      rw [hxr, hxd] at hok
      rcases hok with hw | hi
      · exact hy.not_settled hya hw (by simp)
      · exact hy.not_settled hya hi (by simp)
  · intro v x d d' p hxa hxr
    rw [hxa.1] at hxr
    cases hxr

/-- A position that was filled or trimmed before an append returned is not the append's. -/
theorem append_ne_of_invalid (h₀ : World.init name u options host = some w₀)
    (h : Lib.Reaches World.step w₀ w) (hx : w.Returned x) (hy : w.Returned y) {d : String} {p q : Nat}
    {reply : Reply} (hxr : x.request = .fill p ∨ x.request = .trim p) (hxk : x.result = .ok reply)
    (hlt : x.done < y.invoked) (hya : y.Appended d q) : q ≠ p := by
  have hdone : y.Appended d p → y.done < x.done := by
    refine pairs_of_reaches (u := u) (P := fun _ x y => ∀ d p reply,
      (x.request = .fill p ∨ x.request = .trim p) → x.result = .ok reply → y.Appended d p →
      y.done < x.done) (fun _ _ _ _ _ _ _ h => h) ?_ ?_ h₀ h hx hy d p reply hxr hxk
    · intro v v' a x y hG hs hx hy
      refine ⟨fun d p reply hxr hxk hya => ?_, fun d p reply hyr hyk hxa => ?_⟩
      · exfalso
        have hok := hG.toInv.doneOk hx
        rw [hxk] at hok
        have hi : positionSlot u v.backend p = .invalid := by
          rcases hxr with hxr | hxr <;> rw [hxr] at hok <;> exact hok
        exact hy.not_settled hya hi (by simp)
      · rw [hy.now]
        exact (hG.returned_lt hx).2
    · intro v x d p reply hxr _ hxa
      rcases hxr with hxr | hxr <;> rw [hxa.1] at hxr <;> cases hxr
  rintro rfl
  have hG := (Good.init h₀).of_reaches h
  have hy' := (hG.returned_lt hy).1
  have := hdone hya
  omega

/-! ## Readability -/

/-- Appended data is there, or a trim that covers it has been invoked. -/
theorem appended_readable (h₀ : World.init name u options host = some w₀)
    (h : Lib.Reaches World.step w₀ w) (hx : w.Returned x) {d : String} {p : Nat}
    (hxa : x.Appended d p) :
    positionSlot u w.backend p = .written d ∨ ∃ r k, w.Invoked r k ∧ r.Trims p := by
  have hinv : Good u name w ∧ ∀ x d p, w.Returned x → x.Appended d p →
      positionSlot u w.backend p = .written d ∨ ∃ r k, w.Invoked r k ∧ r.Trims p := by
    refine h.invariant (I := fun w => Good u name w ∧ ∀ x d p, w.Returned x → x.Appended d p →
      positionSlot u w.backend p = .written d ∨ ∃ r k, w.Invoked r k ∧ r.Trims p)
      ?_ ⟨Good.init h₀, fun x d p hx => absurd hx (not_returned_init h₀)⟩
    rintro t a v ⟨hG, hP⟩ - hs
    refine ⟨hG.step hs, fun x d p hx hxa => ?_⟩
    have htrim : (∃ r k, t.Invoked r k ∧ r.Trims p) → ∃ r k, v.Invoked r k ∧ r.Trims p := by
      rintro ⟨r, k, hi, ht⟩
      exact ⟨r, k, hG.toInv.invoked_step hs hi, ht⟩
    rcases hG.return_step hs hx with hx₀ | hx₁
    · rcases hP x d p hx₀ hxa with hw | ht
      · exact (hG.toInv.data_step hs hw).imp id htrim
      · exact Or.inr (htrim ht)
    · left
      have hans := hx₁.answer
      rw [hxa.1, hxa.2] at hans
      rcases hans with hans | ⟨p', hp', -, hw⟩
      · cases hans
      · cases hp'
        exact hw
  exact hinv.2 x d p hx hxa

/-- A read that starts after the append and ends before every trim returns the data. -/
theorem read_of_appended (h₀ : World.init name u options host = some w₀)
    (h : Lib.Reaches World.step w₀ w) (hx : w.Returned x) (hy : w.Returned y) {d : String} {p : Nat}
    (hxa : x.Appended d p) (hyr : y.request = .read p) (hlt : x.done < y.invoked)
    (htrim : ∀ r k, w.Invoked r k → r.Trims p → y.done < k) : y.result = .ok (.data d) := by
  have hinv : Good u name w ∧ ∀ x y d p, w.Returned x → w.Returned y → x.Appended d p →
      y.request = .read p → x.done < y.invoked →
      y.result = .ok (.data d) ∨ ∃ r k, w.Invoked r k ∧ r.Trims p ∧ k < y.done := by
    refine h.invariant_reaches (I := fun w => Good u name w ∧ ∀ x y d p, w.Returned x →
      w.Returned y → x.Appended d p → y.request = .read p → x.done < y.invoked →
      y.result = .ok (.data d) ∨ ∃ r k, w.Invoked r k ∧ r.Trims p ∧ k < y.done)
      ?_ ⟨Good.init h₀, fun x y d p hx => absurd hx (not_returned_init h₀)⟩
    rintro t a v htr ⟨hG, hP⟩ - hs
    refine ⟨hG.step hs, fun x y d p hx hy hxa hyr hlt => ?_⟩
    have hstep : (∃ r k, t.Invoked r k ∧ r.Trims p ∧ k < y.done) →
        ∃ r k, v.Invoked r k ∧ r.Trims p ∧ k < y.done := by
      rintro ⟨r, k, hi, ht⟩
      exact ⟨r, k, hG.toInv.invoked_step hs hi, ht⟩
    rcases hG.return_step hs hy with hy₀ | hy₁
    · rcases hG.return_step hs hx with hx₀ | hx₁
      · exact (hP x y d p hx₀ hy₀ hxa hyr hlt).imp id hstep
      · -- the append returns now, after the read was invoked
        exfalso
        have hb := (hG.returned_lt hy₀)
        have := hx₁.now
        omega
    · rcases hG.return_step hs hx with hx₀ | hx₁
      · rcases appended_readable h₀ htr hx₀ hxa with hw | ⟨r, k, hi, ht⟩
        · left
          have hans := hy₁.answer
          rw [hyr, Answer, hw] at hans
          exact hans
        · right
          refine ⟨r, k, hG.toInv.invoked_step hs hi, ht, ?_⟩
          rw [hy₁.now]
          exact hG.invoked_lt hi
      · exfalso
        have hact := hx₁.action.symm.trans hy₁.action
        simp only [Action.run.injEq] at hact
        have heq := hx.unique hy hact.1 hact.2
        rw [heq] at hxa
        rw [hxa.1] at hyr
        cases hyr
  rcases hinv.2 x y d p hx hy hxa hyr hlt with hok | ⟨r, k, hi, ht, hk⟩
  · exact hok
  · have := htrim r k hi ht
    omega

/-! ## Entries of an append -/

/-- The entries that the calls of an append created. -/
structure AppendCreated (t : Thread) (pc : OpPc) : Prop where
  ok : ∀ reply, pc = .done (.ok reply) → ∃ oid p, reply = .position p ∧ t.created = [(oid, p)]
  other : (∀ reply, pc ≠ .done (.ok reply)) → t.created = []

theorem AppendCreated.step {b b' : Store} {sh : Shared} {d : String} {t t' : Thread} {pc pc' : OpPc}
    (h : AppendCreated t pc) (hnd : ∀ result, pc ≠ .done result)
    (hstep : OpStep u b sh (.append d) b' pc')
    (ht' : t'.created = t.created ++ newEntries b b') : AppendCreated t' pc' := by
  have hnil := h.other fun reply => hnd _
  rw [hnil, List.nil_append] at ht'
  have hcr := hstep.created d rfl
  refine ⟨fun reply hr => ?_, fun hno => ?_⟩
  · rcases hstep.answer _ hr with ⟨hsd, -⟩ | herr | ⟨p, hp, -⟩
    · cases hsd
    · cases herr
    · cases hp
      rw [hr] at hcr
      obtain ⟨oid, hnew⟩ := hcr
      exact ⟨oid, p, rfl, ht'.trans hnew⟩
  · rw [ht']
    unfold Creates at hcr
    split at hcr
    · exact absurd rfl (hno _)
    · exact hcr

/-- An append creates one entry when it returns 0, and none before and when it fails. -/
theorem append_created (h₀ : World.init name u options host = some w₀)
    (h : Lib.Reaches World.step w₀ w) {cid tid : Nat} {t : Thread} {d : String} {pc : OpPc}
    (ht : w.thread? cid tid = some t) (hpc : t.pc = .op (.append d) pc) : AppendCreated t pc := by
  have hinv : Good u name w ∧ ∀ cid tid t d pc, w.thread? cid tid = some t →
      t.pc = .op (.append d) pc → AppendCreated t pc := by
    refine h.invariant (I := fun w => Good u name w ∧ ∀ cid tid t d pc,
      w.thread? cid tid = some t → t.pc = .op (.append d) pc → AppendCreated t pc)
      ?_ ⟨Good.init h₀, fun cid tid t d pc ht hpc => absurd hpc (not_op_init h₀ ht)⟩
    rintro v a v' ⟨hG, hP⟩ - hs
    refine ⟨hG.step hs, fun cid tid t d pc ht hpc => ?_⟩
    cases hG.toInv.thread_step hs ht with
    | same hsame => exact hP cid tid t d pc hsame hpc
    | fresh hnone hi hd hcr hb hop =>
      have henter := hop _ _ hpc
      subst henter
      exact ⟨fun reply hr => absurd hr (by simp [Request.enter]), fun _ => hcr⟩
    | closing t₀ hsame hop heq =>
      subst heq
      cases hpc
    | ran c t₀ sh pc' ha hc htc heq hk hstep hmv =>
      subst heq
      have hpc' : pc' = .op (.append d) pc := hpc
      subst hpc'
      obtain ⟨opc, hop, hnd, hstep'⟩ := PcStep.op hstep hmv
      have hold := hP cid tid t₀ d opc (World.thread?_eq_some.mpr ⟨c, hc, htc⟩) hop
      exact hold.step hnd hstep' rfl
  exact hinv.2 cid tid t d pc ht hpc

/-! ## The main result -/

/-- **Agreement and immutability**.  In every reachable state: an appended position belongs to
    one append; reads return its data, and do return it until it is trimmed; filled and trimmed
    positions are not handed out later; an append creates at most one entry. -/
theorem append_agreement (h₀ : World.init name u options host = some w₀)
    (h : Lib.Reaches World.step w₀ w) :
    (∀ x y d d' p, w.Returned x → w.Returned y → x.Appended d p → y.Appended d' p → x = y) ∧
    (∀ x y d d' p, w.Returned x → w.Returned y → x.Appended d p → y.request = .read p →
      y.result = .ok (.data d') → d' = d) ∧
    (∀ x y d p, w.Returned x → w.Returned y → x.Appended d p → y.request = .read p →
      x.done < y.invoked → (∀ r k, w.Invoked r k → r.Trims p → y.done < k) →
      y.result = .ok (.data d)) ∧
    (∀ x y d p q reply, w.Returned x → w.Returned y →
      (x.request = .fill p ∨ x.request = .trim p) → x.result = .ok reply →
      x.done < y.invoked → y.Appended d q → q ≠ p) ∧
    (∀ cid tid t d pc, w.thread? cid tid = some t → t.pc = .op (.append d) pc →
      t.created.length ≤ 1 ∧ (∀ reply, pc = .done (.ok reply) → t.created.length = 1) ∧
      ∀ e, pc = .done (.error e) → t.created = []) := by
  refine ⟨fun x y d d' p hx hy => appended_unique h₀ h hx hy,
    fun x y d d' p hx hy => read_eq_appended h₀ h hx hy,
    fun x y d p hx hy => read_of_appended h₀ h hx hy,
    fun x y d p q reply hx hy => append_ne_of_invalid h₀ h hx hy,
    fun cid tid t d pc ht hpc => ?_⟩
  have hcr := append_created h₀ h ht hpc
  refine ⟨?_, fun reply hr => ?_, fun e he => hcr.other fun reply => by rw [he]; simp⟩
  · by_cases hok : ∃ reply, pc = .done (.ok reply)
    · obtain ⟨reply, hr⟩ := hok
      obtain ⟨oid, p, -, heq⟩ := hcr.ok reply hr
      rw [heq]
      exact le_refl _
    · rw [hcr.other fun reply hr => hok ⟨reply, hr⟩]
      exact Nat.zero_le _
  · obtain ⟨oid, p, -, heq⟩ := hcr.ok reply hr
    rw [heq]
    rfl

set_option maxRecDepth 100000 in
/-- In the small log, the append that returned position 0 is the only one. -/
theorem append_agreement_sample :
    ∃ w, Sample.world Sample.appended = some w ∧
      w.Returned ⟨0, 4, .append "a", .ok (.position 0), 19, 23⟩ ∧
      ∀ y d, w.Returned y → y.Appended d 0 →
        y = ⟨0, 4, .append "a", .ok (.position 0), 19, 23⟩ := by
  have hrun : (Sample.world Sample.appended).bind (fun w => w.thread? 0 4) =
      some ⟨.op (.append "a") (.done (.ok (.position 0))), 19, some 23,
        [(dataOid Sample.uuid 0 0, 0)]⟩ := by decide +kernel
  obtain ⟨w, hw, ht⟩ := Option.bind_eq_some_iff.mp hrun
  obtain ⟨w₀, h₀, h⟩ := Sample.reaches hw
  have hx : w.Returned ⟨0, 4, .append "a", .ok (.position 0), 19, 23⟩ := ⟨_, ht, rfl, rfl, rfl⟩
  refine ⟨w, hw, hx, fun y d hy hya => ?_⟩
  exact (append_agreement h₀ h).1 y _ d "a" 0 hy hx hya ⟨rfl, rfl⟩

end

end ZLog
