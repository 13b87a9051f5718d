import ZLog.System.Threads
import ZLog.System.Effects
import ZLog.Client.BackendCalls

/-!
# The steps of the operations

The `run` loops make only safe moves, and the step that returns a result returns the right one:
`Answer` relates the result of an operation to the log before and after that step.  The backend
call of an operation takes effect in the step that ends it, so this is the point where the
operation happens.

## Main results

- `Request.run_safe`: the assertions are kept, results are answers, and an operation changes
  only its own positions.
-/

namespace ZLog

/-! ## Answers -/

/-- What a read returns. -/
def readAnswer : Slot → Ret Reply
  | .unwritten => .error .enoent
  | .written data => .ok (.data data)
  | .invalid => .error .enodata

/-- What a fill returns. -/
def fillAnswer : Slot → Ret Reply
  | .written _ => .error .erofs
  | _ => .ok .unit

/-- The result of an operation whose last step goes from `b` to `b'`. -/
def Answer (u : Uuid) (b b' : Store) (result : Ret Reply) : Request → Prop
  | .append data => result = .error .eio ∨
      ∃ p, result = .ok (.position p) ∧ positionSlot u b p = .unwritten ∧
        positionSlot u b' p = .written data
  | .read p => result = readAnswer (positionSlot u b p)
  | .fill p => result = fillAnswer (positionSlot u b p)
  | .trim _ => result = .ok .unit
  | .trimTo _ => result = .ok .unit
  | .checkTail => result = .error .eio ∨ ∃ p, result = .ok (.position p)

/-- Operations give up when the view manager is shut down under them. -/
def ShutDown (sh : Shared) (result : Ret Reply) : Prop :=
  result = .error .eshutdown ∧ sh.managerShutdown = true

/-- The entries that a step of an append creates: one when the append returns with success,
    else none. -/
def Creates (b b' : Store) : OpPc → Prop
  | .done (.ok (.position p)) => ∃ oid, newEntries b b' = [(oid, p)]
  | _ => newEntries b b' = []

/-- The positions an operation may change. -/
def Request.Touches : Request → Nat → Prop
  | .append _, _ => True
  | .read _, _ => False
  | .fill position, q => q = position
  | .trim position, q => q = position
  | .trimTo position, q => q ≤ position
  | .checkTail, _ => False

/-- What holds after a step of an operation. -/
structure OpStep (u : Uuid) (b : Store) (sh : Shared) (r : Request) (b' : Store) (pc : OpPc) :
    Prop where
  ok : OpOk u b' r pc
  answer : ∀ result, pc = .done result → ShutDown sh result ∨ Answer u b b' result r
  created : ∀ data, r = .append data → Creates b b' pc
  frame : ∀ q, ¬ r.Touches q → Untouched b b' q
  /-- Only `trimTo` changes the log before its last step. -/
  still : (∀ p, r ≠ .trimTo p) → (∀ result, pc ≠ .done result) → SameContent b b'

section

variable {u : Uuid} {name : String} {b : Store} {sh : Shared} {r : Request}

/-- A step to a state that is not the end of the operation. -/
theorem OpStep.of_running {b' : Store} {pc : OpPc} (hpc : ∀ result, pc ≠ .done result)
    (hok : OpOk u b' r pc) (hsame : SameContent b b') : OpStep u b sh r b' pc := by
  refine ⟨hok, fun result hr => absurd hr (hpc result), fun data _ => ?_, fun q _ => hsame q,
    fun _ _ => hsame⟩
  unfold Creates
  split
  · exact absurd rfl (hpc _)
  · exact hsame.newEntries

/-- An error promises nothing. -/
theorem doneOk_error (e : Errno) : DoneOk u b r (.error e) := by
  cases r <;> trivial

/-- A step to an error. -/
theorem OpStep.of_error {b' : Store} {e : Errno} (hans : ShutDown sh (.error e) ∨ Answer u b b' (.error e) r)
    (hsame : SameContent b b') : OpStep u b sh r b' (.done (.error e)) := by
  refine ⟨doneOk_error e, fun result hr => ?_, fun data _ => hsame.newEntries, fun q _ => hsame q,
    fun _ _ => hsame⟩
  cases hr
  exact hans

/-- The last step of an operation other than an append. -/
theorem OpStep.of_done {b' : Store} {result : Ret Reply} (hr : ∀ data, r ≠ .append data)
    (hdone : DoneOk u b' r result) (hans : Answer u b b' result r)
    (hframe : ∀ q, ¬ r.Touches q → Untouched b b' q) :
    OpStep u b sh r b' (.done result) := by
  refine ⟨hdone, fun result' hr' => ?_, fun data hd => absurd hd (hr data), hframe,
    fun _ hrun => absurd rfl (hrun result)⟩
  cases hr'
  exact Or.inr hans

/-- What a read says of the slot. -/
theorem Answer.read {b' : Store} {q : Nat} {t : Slot} (h : positionSlot u b q = t) :
    Answer u b b' (readAnswer t) (.read q) := congrArg readAnswer h.symm

/-- What a fill says of the slot. -/
theorem Answer.fill {b' : Store} {q : Nat} {t : Slot} (h : positionSlot u b q = t) :
    Answer u b b' (fillAnswer t) (.fill q) := congrArg fillAnswer h.symm

/-! ## Entry calls -/

/-- The checks of an entry call with the epoch of a stored view. -/
theorem LogOk.checkIo (h : LogOk u name b) {s i e : Nat} (h0 : 0 < e) :
    (∃ o, b.checkIo (dataOid u s i) e = .ok o ∧ objectAt u b s i = some o) ∨
    (b.checkIo (dataOid u s i) e = .error .espipe ∧ e < objectEpoch u b s i) ∨
    (b.checkIo (dataOid u s i) e = .error .enoent ∧ objectAt u b s i = none) := by
  unfold RAMBackend.checkIo RAMBackend.checkEpoch
  rw [if_neg (dataOid_ne_empty u s i), if_neg (by omega)]
  rcases h.kinds s i with hk | ⟨o, hk⟩
  · refine Or.inr (Or.inr ⟨by rw [hk], ?_⟩)
    simp [objectAt, RAMBackend.logAt, hk]
  · have ho : objectAt u b s i = some o := RAMBackend.logAt_eq_some.mpr hk
    rw [hk]
    simp only [Bool.false_eq_true, if_false]
    by_cases hlt : e < o.epoch
    · refine Or.inr (Or.inl ⟨by rw [if_pos hlt], ?_⟩)
      rw [objectEpoch_of_objectAt ho]
      exact hlt
    · exact Or.inl ⟨o, by rw [if_neg hlt], ho⟩

/-- The slot of the position of an entry call. -/
theorem LogOk.positionSlot_of_map (h : LogOk u name b) {e p s i : Nat} {v : View} {last : Bool}
    {o : LogObject} (hv : ViewAt (viewsOf u b) e v)
    (hm : v.objectMap.map p = .ok (some (Stripe.oidAt s i), last))
    (ho : objectAt u b s i = some o) : positionSlot u b p = o.slot p := by
  rw [h.positionSlot_eq (mapped_of_map hv hm), RAMBackend.slotAt_of_logAt ho]

/-- The slot after the object was replaced. -/
theorem Kept.positionSlot_setLog {e p s i : Nat} {v : View} {last : Bool} {o' : LogObject}
    (hk : Kept u name b (b.setLog (dataOid u s i) o')) (hv : ViewAt (viewsOf u b) e v)
    (hm : v.objectMap.map p = .ok (some (Stripe.oidAt s i), last)) :
    positionSlot u (b.setLog (dataOid u s i) o') p = o'.slot p :=
  hk.ok.positionSlot_of_map (hv.mono hk.grows.views) hm (RAMBackend.logAt_setLog ..)

/-- The step that creates a missing object and goes on in one of two states. -/
theorem seal_safe {lb : LogBackend} {v : VersionedView} {oid : String} {ok stale : OpPc}
    (h : LogOk u name b) (hlb : HandleOk u lb) (hv : Held u b v)
    (hoid : ∃ s i, oid = Stripe.oidAt s i)
    (hok : ∀ b', Kept u name b b' → OpOk u b' r ok) (hokr : ∀ result, ok ≠ .done result)
    (hstale : ∀ b', Kept u name b b' → OpOk u b' r stale)
    (hstaler : ∀ result, stale ≠ .done result) {next : Ret Unit → OpPc}
    (hnext : next (.ok ()) = ok ∧ next (.error .espipe) = stale) :
    Safe u name b (OpStep u b sh r) (some (.backend (.seal (lb.oid oid) v.epoch) next)) := by
  obtain ⟨s, i, rfl⟩ := hoid
  -- the seal is for an epoch that the client has seen
  have hcall : CallOk u name b (.seal (dataOid u s i) v.epoch) :=
    .seal s i hv.1 (Nat.le_succ_of_le hv.epoch_le)
  have hk := CallOk.exec h hcall
  have hsame : SameContent b (b.exec (.seal (dataOid u s i) v.epoch)).2 :=
    untouched_seal b (dataOid u s i) v.epoch
  obtain ⟨a, b', hexec, ha, -⟩ := h.exec_seal (s := s) (i := i) hv.1
  refine ⟨by rw [hlb.oid]; exact hcall, ?_⟩
  rw [hexec] at hk hsame
  rw [hlb.oid, hexec]
  -- the object is sealed: go on with the call; or it has a newer epoch: look for the newer view
  rcases ha with rfl | rfl
  · rw [hnext.1]
    exact .of_running hokr (hok b' hk) hsame
  · rw [hnext.2]
    exact .of_running hstaler (hstale b' hk) hsame

/-! ## The states all operations share -/

/-- Mapping a position leads to the backend call or to an expansion. -/
theorem mapPosition_safe {sh' : Shared} {v : VersionedView} {p : Nat} {pe : Option Nat}
    (h : LogOk u name b) (hsh : SharedOk u b sh') (hv : Held u b v) (hat : r.at p)
    (hr : r.positional) : Safe u name b (OpStep u b sh r) (some (mapPosition sh' v p pe)) := by
  have hsame := SameContent.refl b
  unfold mapPosition
  have hmaps : ∀ oid last, v.objectMap.map p = .ok (some oid, last) → MapsTo u b v p oid := by
    intro oid last hm
    obtain ⟨L, hL⟩ := h.history.layout
    obtain ⟨-, -, rfl, -⟩ := (hL v.view hv.mem).map_some hm
    exact ⟨hv, _, _, last, rfl, hm⟩
  split
  · trivial
  · exact ⟨hsh, .of_running (by simp) ⟨hat, trivial⟩ hsame⟩
  · next oid hm => exact ⟨hsh, .of_running (by simp) ⟨hat, hr, hmaps _ _ hm⟩ hsame⟩
  · next oid hm => exact ⟨hsh, .of_running (by simp) ⟨hat, hr, hmaps _ _ hm⟩ hsame⟩

/-- Asking for an expansion changes no view. -/
theorem asyncExpandView_ok (hsh : SharedOk u b sh) (p : Nat) :
    SharedOk u b (asyncExpandView sh p) := by
  unfold asyncExpandView
  split
  · exact hsh.congr rfl rfl
  · split
    · exact hsh.congr rfl rfl
    · exact hsh

/-- The states that the operations share are safe. -/
theorem commonMove_safe (options : Options) {lb : LogBackend} {pc : OpPc} (h : LogOk u name b)
    (hsh : SharedOk u b sh) (hlb : HandleOk u lb) (hpc : OpOk u b r pc) :
    Safe u name b (OpStep u b sh r) (commonMove options lb sh pc) := by
  have hsame := SameContent.refl b
  cases pc with
  -- the expander is asked, and the operation goes on to expand by itself
  | scheduleExpand v oid p pe =>
    exact ⟨asyncExpandView_ok hsh _, .of_running (by simp) hpc hsame⟩
  | expand p pe pc =>
    obtain ⟨hat, hpc⟩ := hpc
    refine Safe.inside (tryExpandView_safe h hsh hlb hpc) ?_ ?_
    · rintro b' s ⟨hs, hok⟩
      exact .of_running (by simp) ⟨hat, hok⟩ hs
    · -- expanded, or the view manager has shut down
      rintro b' ret ⟨hs, rfl | ⟨rfl, hm⟩⟩
      · exact .of_running (by simp) hat hs
      · exact .of_error (Or.inl ⟨rfl, hm⟩) hs
  | wait p pe wait =>
    obtain ⟨hat, hw⟩ := hpc
    refine Safe.inside (waitForNewerView_safe hsh hw) ?_ ?_
    · rintro b' s ⟨rfl, hs⟩
      exact .of_running (by simp) ⟨hat, hs⟩ hsame
    · rintro b' ret rfl
      exact .of_running (by simp) hat hsame
  | _ => trivial

/-! ## Read, Fill and Trim -/

/-- The loop of the operations with one position, given its backend call. -/
theorem positionOp_safe {α : Type} {call : String → Nat → Nat → Call Fbs.View (Ret α)}
    {finish : Ret α → Ret Reply} {options : Options} {lb : LogBackend} {pc : OpPc}
    (h : LogOk u name b) (hsh : SharedOk u b sh) (hlb : HandleOk u lb) (hr : r.positional)
    (hpc : OpOk u b r pc)
    (hio : ∀ v s i p pe last, r.at p → Held u b v →
      v.objectMap.map p = .ok (some (Stripe.oidAt s i), last) →
      Safe u name b (OpStep u b sh r)
        (positionOp call finish options lb sh (.io v (Stripe.oidAt s i) p pe))) :
    Safe u name b (OpStep u b sh r) (positionOp call finish options lb sh pc) := by
  cases pc with
  | start p pe => exact Safe.withView hsh fun v hv => mapPosition_safe h hsh hv hpc hr
  | io v oid p pe =>
    -- at the call itself, each operation has its own argument
    obtain ⟨hat, -, hv, s, i, last, rfl, hm⟩ := hpc
    exact hio v s i p pe last hat hv hm
  | «seal» v oid p pe =>
    obtain ⟨hat, hv, hoid, -⟩ := hpc
    have hstart : ∀ b', OpOk u b' r (.start p pe) := fun _ => hat
    exact seal_safe h hlb hv hoid (fun b' _ => hstart b') (by simp) (fun b' _ => hstart b')
      (by simp) ⟨rfl, rfl⟩
  | _ => exact commonMove_safe options h hsh hlb hpc

/-- The answers that the loop handles itself. -/
theorem positionOp_retry {α : Type} {call : String → Nat → Nat → Call Fbs.View (Ret α)}
    {finish : Ret α → Ret Reply} {options : Options} {lb : LogBackend} {v : VersionedView}
    {s i p : Nat} {pe : Option Nat} {last : Bool} {e : Errno} (hlb : HandleOk u lb)
    (hat : r.at p) (hv : Held u b v)
    (hm : v.objectMap.map p = .ok (some (Stripe.oidAt s i), last))
    (hcall : CallOk u name b (call (dataOid u s i) v.epoch p))
    (hexec : b.exec (call (dataOid u s i) v.epoch p) = (.error e, b))
    (he : (e = .espipe ∧ v.epoch < objectEpoch u b s i) ∨ e = .enoent) :
    Safe u name b (OpStep u b sh r)
      (positionOp call finish options lb sh (.io v (Stripe.oidAt s i) p pe)) := by
  have hsame := SameContent.refl b
  simp only [positionOp, hlb.oid]
  refine ⟨hcall, ?_⟩
  rw [hexec]
  rcases he with ⟨rfl, hlt⟩ | rfl
  · exact .of_running (by simp) ⟨hat, Or.inr ⟨s, i, hlt⟩⟩ hsame
  · exact .of_running (by simp) ⟨hat, hv, ⟨s, i, rfl⟩, fun _ => ⟨hv, s, i, last, rfl, hm⟩⟩ hsame

/-- `Read` answers by the slot of its position. -/
theorem readOp_safe {options : Options} {lb : LogBackend} {pc : OpPc} {q : Nat}
    (h : LogOk u name b) (hsh : SharedOk u b sh) (hlb : HandleOk u lb)
    (hpc : OpOk u b (.read q) pc) :
    Safe u name b (OpStep u b sh (.read q)) (readOp options lb sh pc) := by
  refine positionOp_safe h hsh hlb trivial hpc ?_
  intro v s i p pe last hat hv hm
  have hcall : CallOk u name b (.read (dataOid u s i) v.epoch p) := .read hv hm
  rcases h.checkIo (s := s) (i := i) hv.1 with ⟨o, hio, ho⟩ | ⟨hio, hlt⟩ | ⟨hio, -⟩
  · have hslot := h.positionSlot_of_map hv hm ho
    have hq : q = p := hat
    subst hq
    have hexec : b.exec (.read (dataOid u s i) v.epoch q) = (o.read q, b) :=
      congrArg (·, b) (RAMBackend.read_of_checkIo hio q)
    simp only [positionOp, hlb.oid]
    refine ⟨hcall, ?_⟩
    rw [hexec, LogObject.read_eq]
    -- not written yet, written, or invalid
    cases hs : o.slot q with
    | unwritten =>
      exact .of_done (by simp) trivial (.read (hslot.trans hs)) (fun _ _ => .refl b _)
    | written d =>
      have hw := hslot.trans hs
      exact .of_done (by simp) (Or.inl hw) (.read hw) (fun _ _ => .refl b _)
    | invalid =>
      exact .of_done (by simp) trivial (.read (hslot.trans hs)) (fun _ _ => .refl b _)
  · -- an old epoch, or an object that was never sealed: try again
    refine positionOp_retry hlb hat hv hm hcall ?_ (Or.inl ⟨rfl, hlt⟩)
    simp [RAMBackend.exec, RAMBackend.read, hio]
  · refine positionOp_retry hlb hat hv hm hcall ?_ (Or.inr rfl)
    simp [RAMBackend.exec, RAMBackend.read, hio]

/-- `Fill` invalidates a position that was not written. -/
theorem fillOp_safe {options : Options} {lb : LogBackend} {pc : OpPc} {q : Nat}
    (h : LogOk u name b) (hsh : SharedOk u b sh) (hlb : HandleOk u lb)
    (hpc : OpOk u b (.fill q) pc) :
    Safe u name b (OpStep u b sh (.fill q)) (fillOp options lb sh pc) := by
  refine positionOp_safe h hsh hlb trivial hpc ?_
  intro v s i p pe last hat hv hm
  have hcall : CallOk u name b (.fill (dataOid u s i) v.epoch p) := .fill hv hm
  have hk := CallOk.exec h hcall
  rcases h.checkIo (s := s) (i := i) hv.1 with ⟨o, hio, ho⟩ | ⟨hio, hlt⟩ | ⟨hio, -⟩
  · have hslot := h.positionSlot_of_map hv hm ho
    have hq : q = p := hat
    subst hq
    simp only [positionOp, hlb.oid]
    refine ⟨hcall, ?_⟩
    have hframe : ∀ x, ¬ (Request.fill q).Touches x →
        Untouched b (b.exec (.fill (dataOid u s i) v.epoch q)).2 x :=
      fun x hx => hcall.untouched h hx
    have hexec : b.exec (.fill (dataOid u s i) v.epoch q) =
        b.fill (dataOid u s i) v.epoch q := rfl
    rw [hexec] at hk hframe ⊢
    cases hs : o.slot q with
    -- a free position becomes invalid
    | unwritten =>
      have hf : b.fill (dataOid u s i) v.epoch q = (.ok (), b.setLog (dataOid u s i) (o.fill q).2) := by
        simp [RAMBackend.fill, hio, LogObject.fill_of_unwritten hs]
      rw [hf] at hk hframe ⊢
      have hinv : positionSlot u (b.setLog (dataOid u s i) (o.fill q).2) q = .invalid := by
        rw [hk.positionSlot_setLog hv hm, LogObject.slot_fill hs, if_pos rfl]
      exact .of_done (by simp) hinv (.fill (hslot.trans hs)) hframe
    -- a written one stays
    | written d =>
      have hf : b.fill (dataOid u s i) v.epoch q = (.error .erofs, b) := by
        simp [RAMBackend.fill, hio, LogObject.fill_of_written hs]
      rw [hf]
      exact .of_done (by simp) trivial (.fill (hslot.trans hs)) (fun _ _ => .refl b _)
    -- an invalid one stays invalid
    | invalid =>
      have hf : b.fill (dataOid u s i) v.epoch q = (.ok (), b.setLog (dataOid u s i) o) := by
        simp [RAMBackend.fill, hio, LogObject.fill_of_invalid hs]
      rw [hf] at hk hframe ⊢
      have hinv : positionSlot u (b.setLog (dataOid u s i) o) q = .invalid := by
        rw [hk.positionSlot_setLog hv hm, hs]
      exact .of_done (by simp) hinv (.fill (hslot.trans hs)) hframe
  · refine positionOp_retry hlb hat hv hm hcall ?_ (Or.inl ⟨rfl, hlt⟩)
    simp [RAMBackend.exec, RAMBackend.fill, hio]
  · refine positionOp_retry hlb hat hv hm hcall ?_ (Or.inr rfl)
    simp [RAMBackend.exec, RAMBackend.fill, hio]

/-- `Trim` invalidates its position. -/
theorem trimOp_safe {options : Options} {lb : LogBackend} {pc : OpPc} {q : Nat}
    (h : LogOk u name b) (hsh : SharedOk u b sh) (hlb : HandleOk u lb)
    (hpc : OpOk u b (.trim q) pc) :
    Safe u name b (OpStep u b sh (.trim q)) (trimOp options lb sh pc) := by
  refine positionOp_safe h hsh hlb trivial hpc ?_
  intro v s i p pe last hat hv hm
  have hcall : CallOk u name b (.trim (dataOid u s i) v.epoch p false false) := .trim hv hm
  have hk := CallOk.exec h hcall
  rcases h.checkIo (s := s) (i := i) hv.1 with ⟨o, hio, ho⟩ | ⟨hio, hlt⟩ | ⟨hio, -⟩
  · have hq : q = p := hat
    subst hq
    simp only [positionOp, hlb.oid]
    refine ⟨hcall, ?_⟩
    have hframe : ∀ x, ¬ (Request.trim q).Touches x →
        Untouched b (b.exec (.trim (dataOid u s i) v.epoch q false false)).2 x := by
      intro x hx
      exact hcall.untouched h (by simpa [Call.Touches, LogObject.TrimCovers, Request.Touches] using hx)
    -- whatever the slot was, it is invalid now
    have hexec : b.exec (.trim (dataOid u s i) v.epoch q false false) =
        (.ok (), b.setLog (dataOid u s i) (o.trim q false false)) := by
      simp [RAMBackend.exec, RAMBackend.trim, hio]
    rw [hexec] at hk hframe ⊢
    have hinv : positionSlot u (b.setLog (dataOid u s i) (o.trim q false false)) q = .invalid := by
      rw [hk.positionSlot_setLog hv hm, LogObject.slot_trim_single, if_pos rfl]
    exact .of_done (by simp) hinv rfl hframe
  · -- an old epoch, or an object that was never sealed: try again
    refine positionOp_retry hlb hat hv hm hcall ?_ (Or.inl ⟨rfl, hlt⟩)
    simp [RAMBackend.exec, RAMBackend.trim, hio]
  · refine positionOp_retry hlb hat hv hm hcall ?_ (Or.inr rfl)
    simp [RAMBackend.exec, RAMBackend.trim, hio]

/-! ## Append -/

theorem appendOp_io_safe {options : Options} {lb : LogBackend} {data : String} {v : VersionedView}
    {s i p : Nat} {pe : Option Nat} {last : Bool} (h : LogOk u name b) (hlb : HandleOk u lb)
    (hv : Held u b v) (hm : v.objectMap.map p = .ok (some (Stripe.oidAt s i), last)) :
    Safe u name b (OpStep u b sh (.append data))
      (appendOp data options lb sh (.io v (Stripe.oidAt s i) p pe)) := by
  have hsame := SameContent.refl b
  have hmaps : MapsTo u b v p (Stripe.oidAt s i) := ⟨hv, s, i, last, rfl, hm⟩
  have hcall : CallOk u name b (.write (dataOid u s i) data v.epoch p) := .write data hv hm
  have hk := CallOk.exec h hcall
  have hexec : b.exec (.write (dataOid u s i) data v.epoch p) =
      b.write (dataOid u s i) data v.epoch p := rfl
  simp only [appendOp, hlb.oid]
  refine ⟨hcall, ?_⟩
  rw [hexec] at hk ⊢
  rcases b.write_cases (dataOid u s i) data v.epoch p with ⟨err, hio, hw⟩ | ⟨o, -, -, hw⟩ |
    ⟨o, hio, hu, hw⟩
  · rw [hw]
    rcases h.checkIo (s := s) (i := i) hv.1 with ⟨o, hio', -⟩ | ⟨hio', hlt⟩ | ⟨hio', -⟩
    · rw [hio'] at hio
      cases hio
    · rw [hio'] at hio
      cases hio
      exact .of_running (by simp) ⟨trivial, Or.inr ⟨s, i, hlt⟩⟩ hsame
    · rw [hio'] at hio
      cases hio
      exact .of_running (by simp) ⟨trivial, hv, ⟨s, i, rfl⟩, fun _ => hmaps⟩ hsame
  · rw [hw]
    exact .of_running (by simp) trivial hsame
  · -- the write took effect
    obtain ⟨-, -, ho, -⟩ := RAMBackend.checkIo_eq_ok.mp hio
    have hnew : newEntries b (b.write (dataOid u s i) data v.epoch p).2 = [(dataOid u s i, p)] :=
      newEntries_write (by rw [hw])
    have hdata : (if b.blackhole then "" else data) = data := by rw [h.stores]; rfl
    rw [hdata] at hw
    rw [hw] at hk hnew ⊢
    have hbefore : positionSlot u b p = .unwritten := by
      rw [h.positionSlot_of_map hv hm ho, hu]
    have hafter : positionSlot u (b.setLog (dataOid u s i) (o.write data p).2) p =
        .written data := by
      rw [Kept.positionSlot_setLog hk hv hm, LogObject.slot_write hu, if_pos rfl]
    refine ⟨Or.inl hafter, ?_, fun _ _ => ⟨_, hnew⟩, fun q hq => absurd trivial hq,
      fun _ hrun => absurd rfl (hrun _)⟩
    intro result hr
    cases hr
    exact Or.inr (Or.inr ⟨p, rfl, hbefore, hafter⟩)

/-- `Append` is safe at every control state. -/
theorem appendOp_safe {options : Options} {lb : LogBackend} {data : String} {pc : OpPc}
    (h : LogOk u name b) (hsh : SharedOk u b sh) (hlb : HandleOk u lb)
    (hpc : OpOk u b (.append data) pc) :
    Safe u name b (OpStep u b sh (.append data)) (appendOp data options lb sh pc) := by
  have hsame := SameContent.refl b
  cases pc with
  | start p pe =>
    refine Safe.withView hsh fun v hv => ?_
    split
    · -- the client is not the sequencer
      exact ⟨hsh, .of_error (Or.inr (Or.inl rfl)) hsame⟩
    · split
      · trivial
      · split
        · -- a position from the try before is used again
          exact mapPosition_safe h hsh hv trivial trivial
        · exact ⟨hsh, .of_running (by simp) hv hsame⟩
  -- a position is drawn
  | sequence v i =>
    simp only [appendOp]
    split
    · trivial
    · exact mapPosition_safe h (hsh.congr rfl rfl) hpc trivial trivial
  -- the write
  | io v oid p pe =>
    obtain ⟨-, -, hv, s, i, last, rfl, hm⟩ := hpc
    exact appendOp_io_safe h hlb hv hm
  -- the seal after the write has found no object
  | «seal» v oid p pe =>
    obtain ⟨hat, hv, hoid, hmaps⟩ := hpc
    have hio : ∀ b', Kept u name b b' → OpOk u b' (.append data) (.io v oid p pe) :=
      fun b' hk => ⟨trivial, trivial, (hmaps trivial).mono hk.grows⟩
    have hstart : ∀ b', OpOk u b' (.append data) (.start p pe) := fun _ => trivial
    exact seal_safe h hlb hv hoid hio (by simp) (fun b' _ => hstart b') (by simp) ⟨rfl, rfl⟩
  | _ => exact commonMove_safe options h hsh hlb hpc

/-! ## CheckTail -/

/-- `CheckTail` is safe at every control state. -/
theorem tailOp_safe {pc : OpPc} (hsh : SharedOk u b sh) :
    Safe u name b (OpStep u b sh .checkTail) (tailOp sh pc) := by
  cases pc with
  | start p pe =>
    refine Safe.withView hsh fun v hv => ?_
    split
    · exact ⟨hsh, .of_error (Or.inr (Or.inl rfl)) (.refl b)⟩
    · exact ⟨hsh, .of_running (by simp) hv (.refl b)⟩
  | sequence v i =>
    simp only [tailOp]
    split
    · trivial
    · exact ⟨hsh, .of_done (by simp) trivial (Or.inr ⟨_, rfl⟩) (fun q _ => .refl b q)⟩
  | _ => trivial

/-! ## trimTo -/

/-- What `map_to` can return. -/
theorem ObjectMap.mapTo_cases {m : ObjectMap} {p k : Nat} {result : ObjectMap.MapTo}
    (h : m.mapTo p k = .ok result) :
    (result = .unmapped) ∨
    (result = .done ∧ m.numStripes ≤ k ∧ ∃ oid last, m.map p = .ok (some oid, last)) ∨
    (∃ stripe, m.stripeById k = .ok stripe ∧
      ((p < stripe.minPosition ∧ result = .objects [] (k + 1)) ∨
        (stripe.minPosition ≤ p ∧ result = .objects (ObjectMap.mapToObjects stripe p) (k + 1)))) := by
  unfold ObjectMap.mapTo at h
  -- the position is not mapped, or the walk is over, or there is one more stripe
  split at h
  · cases h
  · cases h
    exact Or.inl rfl
  · next oid last hm =>
    split at h
    · next hk =>
      cases h
      exact Or.inr (Or.inl ⟨rfl, hk, oid, last, hm⟩)
    · split at h
      · cases h
      · next stripe hs =>
        refine Or.inr (Or.inr ⟨stripe, hs, ?_⟩)
        split at h
        · next hlt =>
          cases h
          exact Or.inl ⟨hlt, rfl⟩
        · next hge =>
          cases h
          exact Or.inr ⟨by omega, rfl⟩

/-- When the walk has passed all stripes, everything up to the position is trimmed. -/
theorem LogOk.trimmed_of_walk (h : LogOk u name b) {v : VersionedView} {p k : Nat} {oid : String}
    {last : Bool} (hv : Held u b v) (hk : v.objectMap.numStripes ≤ k)
    (hm : v.objectMap.map p = .ok (some oid, last)) (ht : TrimmedBelow u b v p k) (q : Nat)
    (hq : q ≤ p) : positionSlot u b q = .invalid := by
  obtain ⟨L, hL⟩ := h.history.layout
  have hlay := hL v.view hv.mem
  obtain ⟨hp, hsize, -, -⟩ := hlay.map_some hm
  -- `q` is mapped like `p`, and below it
  rcases hlay.map_cases q with ⟨hge, -⟩ | ⟨-, heq, -⟩ | ⟨hlt, -, hmap⟩
  · omega
  · omega
  · -- its object is one of those trimmed
    have hs : q / L.size < v.view.objectMap.nextStripeId :=
      (Nat.div_lt_iff_lt_mul L.size_pos).mpr hlt
    have hnum : v.objectMap.numStripes = v.view.objectMap.nextStripeId := rfl
    obtain ⟨stripe, hst, hid, hw, hlo, -⟩ := hlay.stripeById hs
    obtain ⟨full, hmem⟩ := ObjectMap.mapToObjects_complete (L := L) hid hw hlo rfl hq
    have hmin : stripe.minPosition ≤ p := by
      rw [hlo]
      exact le_trans (Nat.div_mul_le_self q L.size) hq
    obtain ⟨o, ho, hbelow⟩ := ht _ stripe _ full (by omega) hst hmin hmem
    rw [h.positionSlot_of_map hv hmap ho]
    refine LogObject.slot_eq_invalid_of_below ?_
    unfold LogObject.belowTrimLimit at hbelow ⊢
    cases hl : o.trimLimit with
    | none => simp [hl] at hbelow
    | some l =>
      simp only [hl, decide_eq_true_eq] at hbelow ⊢
      omega

/-- The loop over the objects of a stripe, or the next stripe. -/
theorem trimAll_ok {v : VersionedView} {p t : Nat} {stripe : Stripe}
    {objects d rest : List (String × Bool)}
    (hv : Held u b v) (hst : v.objectMap.stripeById t = .ok stripe)
    (hmin : stripe.minPosition ≤ p) (hbelow : TrimmedBelow u b v p t)
    (hobj : objects = ObjectMap.mapToObjects stripe p) (hsplit : objects = d ++ rest)
    (hdone : ∀ i f, (Stripe.oidAt t i, f) ∈ d → Limited u b p t i) :
    OpOk u b (.trimTo p) (OpPc.trimAll v p (t + 1) rest) := by
  -- no object is left, or the next one
  cases rest with
  | nil =>
    refine ⟨rfl, hv, fun t' stripe' i full ht' hst' hmin' hmem => ?_⟩
    rcases Nat.lt_succ_iff_lt_or_eq.mp ht' with hlt | rfl
    · exact hbelow t' stripe' i full hlt hst' hmin' hmem
    · rw [hst] at hst'
      cases hst'
      rw [← hobj, hsplit, List.append_nil] at hmem
      exact hdone i full hmem
  | cons x rest =>
    obtain ⟨oid, full⟩ := x
    exact ⟨rfl, hv, t, stripe, d, rfl, hst, hmin, hbelow, hobj ▸ hsplit, hdone⟩

theorem trimToOp_walk_safe {options : Options} {lb : LogBackend} {v : VersionedView} {p k : Nat}
    (h : LogOk u name b) (hsh : SharedOk u b sh) (hv : Held u b v)
    (ht : TrimmedBelow u b v p k) :
    Safe u name b (OpStep u b sh (.trimTo p)) (trimToOp options lb sh (.walk v p k)) := by
  have hsame := SameContent.refl b
  have hrun : ∀ t rest result, OpPc.trimAll v p t rest ≠ .done result := by
    intro t rest result
    cases rest <;> simp [OpPc.trimAll]
  simp only [trimToOp]
  cases hmt : v.objectMap.mapTo p k with
  | error f => trivial
  | ok result =>
    rcases ObjectMap.mapTo_cases hmt with rfl | ⟨rfl, hk, oid, last, hm⟩ |
      ⟨stripe, hst, ⟨hlt, rfl⟩ | ⟨hmin, rfl⟩⟩
    · exact ⟨hsh, .of_running (by simp) ⟨rfl, trivial⟩ hsame⟩
    · exact ⟨hsh, .of_done (by simp) (h.trimmed_of_walk hv hk hm ht) rfl
        (fun q _ => hsame q)⟩
    · refine ⟨hsh, .of_running (hrun _ _) ⟨rfl, hv, fun t stripe' i full ht' hst' hmin hmem => ?_⟩
        hsame⟩
      rcases Nat.lt_succ_iff_lt_or_eq.mp ht' with hlt' | rfl
      · exact ht t stripe' i full hlt' hst' hmin hmem
      · rw [hst] at hst'
        cases hst'
        omega
    · exact ⟨hsh, .of_running (hrun _ _)
        (trimAll_ok (d := []) hv hst hmin ht rfl rfl (fun i f hmem => by cases hmem)) hsame⟩

/-- `trimTo`, at the trim of one object. -/
theorem trimToOp_trim_safe {options : Options} {lb : LogBackend} {v : VersionedView} {p k : Nat}
    {oid : String} {full : Bool} {rest : List (String × Bool)} (h : LogOk u name b)
    (hlb : HandleOk u lb) (hpc : OpOk u b (.trimTo p) (.trim v p k oid full rest)) :
    Safe u name b (OpStep u b sh (.trimTo p))
      (trimToOp options lb sh (.trim v p k oid full rest)) := by
  obtain ⟨-, hv, t, stripe, done, rfl, hst, hmin, hbelow, hsplit, hdone⟩ := hpc
  -- the object is one of those that `map_to` has named
  have hmem : (oid, full) ∈ ObjectMap.mapToObjects stripe p := by
    rw [hsplit]
    exact List.mem_append_right _ List.mem_cons_self
  obtain ⟨L, hL⟩ := h.history.layout
  obtain ⟨-, hid, hw, hlo, hhi⟩ := (hL v.view hv.mem).stripeById_ok hst
  obtain ⟨i, -, rfl, -⟩ := ObjectMap.mem_mapToObjects hid hw hlo hhi hmem
  have hcall : CallOk u name b (.trim (dataOid u t i) v.epoch p true full) :=
    .trimRange hv hst hmin hmem
  have hk := CallOk.exec h hcall
  have hframe : ∀ x, ¬ (Request.trimTo p).Touches x →
      Untouched b (b.exec (.trim (dataOid u t i) v.epoch p true full)).2 x := by
    intro x hx
    exact hcall.untouched h (by simpa [Call.Touches, LogObject.TrimCovers, Request.Touches] using hx)
  simp only [trimToOp, hlb.oid]
  refine ⟨hcall, ?_⟩
  rcases h.checkIo (s := t) (i := i) hv.1 with ⟨o, hio, ho⟩ | ⟨hio, hlt⟩ | ⟨hio, -⟩
  · have hexec : b.exec (.trim (dataOid u t i) v.epoch p true full) =
        (.ok (), b.setLog (dataOid u t i) (o.trim p true full)) := by
      simp [RAMBackend.exec, RAMBackend.trim, hio]
    rw [hexec] at hk hframe ⊢
    -- its limit is at `p` or above now
    have hlimited : Limited u (b.setLog (dataOid u t i) (o.trim p true full)) p t i := by
      refine ⟨_, RAMBackend.logAt_setLog .., ?_⟩
      have hraise := LogObject.belowTrimLimit_raiseTrimLimit o p p
      simp only [le_refl, decide_true, Bool.true_or] at hraise
      cases full with
      | false => rw [LogObject.trim_range, hraise]
      | true => exact hraise
    -- so one more object is done
    have hsplit' : ObjectMap.mapToObjects stripe p =
        (done ++ [(Stripe.oidAt t i, full)]) ++ rest := by
      rw [hsplit]
      simp
    have hok := trimAll_ok (hv.mono hk.grows) hst hmin (hbelow.mono hk.grows) rfl hsplit' (by
      intro j f hj
      rcases List.mem_append.mp hj with hj | hj
      · exact (hdone j f hj).mono hk.grows
      · have hji := congrArg Prod.fst (List.mem_singleton.mp hj)
        rw [(oidAt_injective hji).2]
        exact hlimited)
    have hrun : ∀ result, OpPc.trimAll v p (t + 1) rest ≠ .done result := by
      intro result
      cases rest <;> simp [OpPc.trimAll]
    exact ⟨hok, fun result hr => absurd hr (hrun result), fun d hd => absurd hd (by simp), hframe,
      fun hno => absurd rfl (hno p)⟩
  · -- a newer epoch: start over with the newer view
    have hexec : b.exec (.trim (dataOid u t i) v.epoch p true full) = (.error .espipe, b) := by
      simp [RAMBackend.exec, RAMBackend.trim, hio]
    rw [hexec]
    exact .of_running (by simp) ⟨rfl, Or.inr ⟨t, i, hlt⟩⟩ (.refl b)
  · -- an object that was never sealed: seal it and start over
    have hexec : b.exec (.trim (dataOid u t i) v.epoch p true full) = (.error .enoent, b) := by
      simp [RAMBackend.exec, RAMBackend.trim, hio]
    rw [hexec]
    exact .of_running (by simp) ⟨rfl, hv, ⟨t, i, rfl⟩, fun hc => absurd hc (by simp [Request.positional])⟩
      (.refl b)

/-- `trimTo` is safe at every control state. -/
theorem trimToOp_safe {options : Options} {lb : LogBackend} {pc : OpPc} {q : Nat}
    (h : LogOk u name b) (hsh : SharedOk u b sh) (hlb : HandleOk u lb)
    (hpc : OpOk u b (.trimTo q) pc) :
    Safe u name b (OpStep u b sh (.trimTo q)) (trimToOp options lb sh pc) := by
  have hsame := SameContent.refl b
  cases pc with
  | start p pe =>
    have hq : q = p := hpc
    subst hq
    refine Safe.withView hsh fun v hv => ?_
    -- the minimum is advanced first
    split
    · exact ⟨hsh, .of_running (by simp) ⟨rfl, trivial⟩ hsame⟩
    · exact ⟨hsh, .of_running (by simp) ⟨rfl, hv, fun t _ _ _ ht => absurd ht (by omega)⟩ hsame⟩
  -- once it is advanced, the walk starts over
  | advance p pc =>
    obtain ⟨hr, hpc⟩ := hpc
    cases hr
    refine Safe.inside (advanceMinValidPosition_safe h hsh hlb hpc) ?_ ?_
    · rintro b' s ⟨hs, hok⟩
      exact .of_running (by simp) ⟨rfl, hok⟩ hs
    · rintro b' ret ⟨hs, rfl⟩
      exact .of_running (by simp) rfl hs
  | walk v p k =>
    obtain ⟨hr, hv, ht⟩ := hpc
    cases hr
    exact trimToOp_walk_safe h hsh hv ht
  | trim v p k oid full rest =>
    have hr := hpc.1
    cases hr
    exact trimToOp_trim_safe h hlb hpc
  | «seal» v oid p pe =>
    obtain ⟨hat, hv, hoid, -⟩ := hpc
    have hstart : ∀ b', OpOk u b' (.trimTo q) (.start p pe) := fun _ => hat
    exact seal_safe h hlb hv hoid (fun b' _ => hstart b') (by simp) (fun b' _ => hstart b')
      (by simp) ⟨rfl, rfl⟩
  | _ => exact commonMove_safe options h hsh hlb hpc

/-! ## All operations -/

/-- **Operations**: every step of a `run` method keeps its assertion, and a result is an answer. -/
theorem Request.run_safe {options : Options} {lb : LogBackend} {pc : OpPc} (h : LogOk u name b)
    (hsh : SharedOk u b sh) (hlb : HandleOk u lb) (hpc : OpOk u b r pc) :
    Safe u name b (OpStep u b sh r) (r.run options lb sh pc) := by
  cases r with
  | append data => exact appendOp_safe h hsh hlb hpc
  | read p => exact readOp_safe h hsh hlb hpc
  | fill p => exact fillOp_safe h hsh hlb hpc
  | trim p => exact trimOp_safe h hsh hlb hpc
  | trimTo p => exact trimToOp_safe h hsh hlb hpc
  | checkTail => exact tailOp_safe hsh

/-- The backend calls of an operation. -/
theorem Request.run_makes {options : Options} {lb : LogBackend} {pc : OpPc}
    (hpc : OpOk u b r pc) :
    AllCalls (fun c => c.Manages ∨ r.Makes c) (r.run options lb sh pc) := by
  have hp : ∀ (curr : VersionedView) (newView : View), pc.proposal? = some (curr, newView) →
      (Call.proposeView lb.hoid (curr.epoch + 1) newView.encode).Manages ∨
        r.Makes (.proposeView lb.hoid (curr.epoch + 1) newView.encode) :=
    fun _ _ _ => Or.inl trivial
  have hs : ∀ v oid p pe, pc = .seal v oid p pe →
      (Call.seal (lb.oid oid) v.epoch).Manages ∨ r.Makes (.seal (lb.oid oid) v.epoch) :=
    fun _ _ _ _ _ => Or.inl trivial
  -- the position of the call is that of the request
  have hat : ∀ v oid p pe, pc = .io v oid p pe → r.at p := by
    rintro v oid p pe rfl
    exact hpc.1
  cases r with
  | append data => exact appendOp_calls pc hp hs fun v oid p pe _ => Or.inr rfl
  | read q =>
    refine positionOp_calls pc hp hs fun v oid p pe h => Or.inr ?_
    exact congrArg Request.read (hat v oid p pe h)
  | fill q =>
    refine positionOp_calls pc hp hs fun v oid p pe h => Or.inr ?_
    exact congrArg Request.fill (hat v oid p pe h)
  | trim q =>
    simp only [Request.run, trimOp]
    refine positionOp_calls pc hp hs fun v oid p pe h => Or.inr ?_
    exact congrArg Request.trim (hat v oid p pe h)
  | trimTo q =>
    refine trimToOp_calls pc hp hs fun v p k oid full rest h => Or.inr ?_
    subst h
    exact hpc.1
  | checkTail => exact tailOp_calls pc

/-- The position is covered by the trim of a request. -/
def Request.Trims (q : Nat) : Request → Prop
  | .trim position => q = position
  | .trimTo position => q ≤ position
  | _ => False

/-- An operation starts in a state that is fine. -/
theorem Request.enter_ok (r : Request) : OpOk u b r r.enter := by
  cases r with
  | append => trivial
  | checkTail => trivial
  | _ => rfl

end

end ZLog
