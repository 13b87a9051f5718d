import ZLog.System.Agreement

/-!
# The contract of trimTo

Once a `trimTo(p)` has returned 0, everything up to `p` is gone for good, for every client; and
the operation does nothing to the positions after `p`.

## Main results

- `trimTo_contract`
-/

namespace ZLog

variable {u : Uuid} {name : String} {w w' w₀ : World} {options : Options} {host : Host} {a : Action}
  {x y : OpRecord}

/-- What operations on a trimmed position return. -/
structure TrimmedAt (q : Nat) (y : OpRecord) : Prop where
  read : y.request = .read q → y.result = .error .enodata
  fill : y.request = .fill q → y.result = .ok .unit
  trim : y.request = .trim q → y.result = .ok .unit
  append : ∀ d, ¬ y.Appended d q

/-- An operation that returns on an invalid position. -/
theorem ReturnStep.trimmedAt (h : ReturnStep u name w w' a y) {q : Nat}
    (hq : positionSlot u w.backend q = .invalid) : TrimmedAt q y := by
  have hans := h.answer
  refine ⟨fun hr => ?_, fun hr => ?_, fun hr => ?_, fun d hd => ?_⟩
  · rw [hr, Answer, hq] at hans
    exact hans
  · rw [hr, Answer, hq] at hans
    exact hans
  · rw [hr] at hans
    exact hans
  · exact h.not_settled hd hq (by simp)

/-- Operations invoked after a `trimTo` returned find the positions it covers trimmed. -/
theorem trimmed_after_trimTo (h₀ : World.init name u options host = some w₀)
    (h : Lib.Reaches World.step w₀ w) (hx : w.Returned x) (hy : w.Returned y) {p q : Nat}
    {reply : Reply} (hxr : x.request = .trimTo p) (hxk : x.result = .ok reply) (hq : q ≤ p)
    (hlt : x.done < y.invoked) : TrimmedAt q y := by
  refine pairs_of_reaches (u := u) (P := fun _ x y => ∀ p q reply, x.request = .trimTo p →
    x.result = .ok reply → q ≤ p → x.done < y.invoked → TrimmedAt q y)
    (fun _ _ _ _ _ _ _ h => h) ?_ ?_ h₀ h hx hy p q reply hxr hxk hq hlt
  · intro v v' a x y hG hs hx hy
    refine ⟨fun p q reply hxr hxk hq _ => ?_, fun p q reply _ _ _ hlt => ?_⟩
    · have hok := hG.toInv.doneOk hx
      rw [hxr, hxk] at hok
      exact hy.trimmedAt (hok q hq)
    · -- the trim returns now, after the other operation did
      exfalso
      have hb := hG.returned_lt hx
      have hnow := hy.now
      omega
  · intro v x p q reply hxr hxk hq hlt
    refine ⟨fun hr => ?_, fun hr => ?_, fun hr => ?_, fun d hd => ?_⟩
    · rw [hxr] at hr
      cases hr
    · rw [hxr] at hr
      cases hr
    · rw [hxr] at hr
      cases hr
    · have hr := hd.1
      rw [hxr] at hr
      cases hr

/-- A step of a `trimTo(p)` leaves the positions after `p` alone. -/
theorem Inv.trimTo_frame (hI : Inv u name w) {cid tid : Nat} {t : Thread} {p q : Nat} {pc : OpPc}
    (hs : w.step (.run cid tid) = some w') (ht : w.thread? cid tid = some t)
    (hpc : t.pc = .op (.trimTo p) pc) (hq : p < q) :
    positionSlot u w'.backend q = positionSlot u w.backend q ∧
      ∀ oid, entryAt w'.backend oid q = entryAt w.backend oid q := by
  obtain ⟨c, t', hc, -, htc, rfl | ⟨sh, pc', hst, hk, -, hstep, -⟩⟩ := hI.run_cases hs
  · exact ⟨rfl, fun oid => rfl⟩
  · rw [World.thread?_of_client hc, htc] at ht
    cases ht
    rw [hpc] at hstep
    obtain ⟨opc, -, hop⟩ := hstep
    have hun := hop.frame q (Nat.not_le_of_lt hq)
    exact ⟨hk.positionSlot_eq hI.log hun.slot, hun.entry⟩

/-- The action is a step of a trim that covers `q`. -/
def TrimStep (q : Nat) (w : World) (a : Action) : Prop :=
  ∃ cid tid t r pc, a = .run cid tid ∧ w.thread? cid tid = some t ∧ t.pc = .op r pc ∧ r.Trims q

/-- Data stays in every step that is not one of a trim that covers it. -/
theorem Inv.data_kept (hI : Inv u name w) (h : w.step a = some w') {q : Nat} {d : String}
    (ha : ¬ TrimStep q w a) (hd : positionSlot u w.backend q = .written d) :
    positionSlot u w'.backend q = .written d := by
  rcases hI.backend_step h with heq |
    ⟨cid, tid, c, t, α, call, next, hact, hc, ht, hm, hcall, hpc, heq⟩
  · rw [heq]
    exact hd
  · rw [heq]
    refine hcall.written_stays hI.log (fun htr => ha ?_) hd
    obtain ⟨r, opc, hop, hr⟩ := Pc.move_trims hpc hm htr
    exact ⟨cid, tid, t, r, opc, hact, World.thread?_eq_some.mpr ⟨c, hc, ht⟩, hop, hr⟩

/-- **trimTo**: what a `trimTo(p)` that returned 0 means for later operations; its steps change
    nothing after `p`; and data stays until a trim that covers it. -/
theorem trimTo_contract (h₀ : World.init name u options host = some w₀)
    (h : Lib.Reaches World.step w₀ w) :
    (∀ x y p q reply, w.Returned x → w.Returned y → x.request = .trimTo p →
      x.result = .ok reply → q ≤ p → x.done < y.invoked → TrimmedAt q y) ∧
    (∀ w' cid tid t p q pc, w.step (.run cid tid) = some w' → w.thread? cid tid = some t →
      t.pc = .op (.trimTo p) pc → p < q →
      positionSlot u w'.backend q = positionSlot u w.backend q ∧
        ∀ oid, entryAt w'.backend oid q = entryAt w.backend oid q) ∧
    (∀ w' q d, Lib.Run World.step (fun v a => ¬ TrimStep q v a) w w' →
      positionSlot u w.backend q = .written d → positionSlot u w'.backend q = .written d) := by
  have hI := (Inv.init h₀).of_reaches h
  refine ⟨fun x y p q reply hx hy => trimmed_after_trimTo h₀ h hx hy,
    fun w' cid tid t p q pc => hI.trimTo_frame, fun w' q d hrun hd => ?_⟩
  have hinv : Inv u name w' ∧ positionSlot u w'.backend q = .written d :=
    hrun.invariant (I := fun v => Inv u name v ∧ positionSlot u v.backend q = .written d)
      (fun v a v' hv ha hs => ⟨(hv.1.step hs).1, hv.1.data_kept hs ha hv.2⟩) ⟨hI, hd⟩
  exact hinv.2

/-- In the small log, position 0 is trimmed after an append and then read. -/
def Sample.trimmed : List Action :=
  Sample.appended ++ .invoke 0 (.trimTo 0) :: Sample.steps 0 5 4 ++ Sample.steps 0 1 5 ++
    Sample.steps 0 5 5 ++ .invoke 0 (.read 0) :: Sample.steps 0 6 3

set_option maxRecDepth 100000 in
theorem trimTo_contract_sample :
    ∃ w, Sample.world Sample.trimmed = some w ∧
      w.Returned ⟨0, 5, .trimTo 0, .ok .unit, 24, 38⟩ ∧
      w.Returned ⟨0, 6, .read 0, .error .enodata, 39, 42⟩ ∧
      TrimmedAt 0 ⟨0, 6, .read 0, .error .enodata, 39, 42⟩ := by
  have hrun : (Sample.world Sample.trimmed).bind (fun w =>
      (w.thread? 0 5).bind fun t => (w.thread? 0 6).map fun t' => (t, t')) =
      some (⟨.op (.trimTo 0) (.done (.ok .unit)), 24, some 38, []⟩,
        ⟨.op (.read 0) (.done (.error .enodata)), 39, some 42, []⟩) := by decide +kernel
  obtain ⟨w, hw, ht⟩ := Option.bind_eq_some_iff.mp hrun
  obtain ⟨t, ht, ht'⟩ := Option.bind_eq_some_iff.mp ht
  obtain ⟨t', ht', heq⟩ := Option.map_eq_some_iff.mp ht'
  cases heq
  obtain ⟨w₀, h₀, h⟩ := Sample.reaches hw
  have hx : w.Returned ⟨0, 5, .trimTo 0, .ok .unit, 24, 38⟩ := ⟨_, ht, rfl, rfl, rfl⟩
  have hy : w.Returned ⟨0, 6, .read 0, .error .enodata, 39, 42⟩ := ⟨_, ht', rfl, rfl, rfl⟩
  refine ⟨w, hw, hx, hy, ?_⟩
  exact (trimTo_contract h₀ h).1 _ _ 0 0 .unit hx hy rfl rfl (le_refl 0) (by decide)

end ZLog
