import ZLog.Client.Memory

/-!
# Where the threads of a client go

Rules for a property of the control state and the memory after a step (`Lands`), the stages of
opening a log (until the handle exists, and once this client has become the sequencer), and the
positions that appends hold.

## Main results

- `openEntry_won`, `openEntry_unnamed`: the stages of opening.
- `appendOp_position`: an append holds a position until it draws another one.
- `appendOp_view`: an append works with views that make its client the sequencer.
-/

namespace ZLog

section

variable {σ τ ρ : Type} {sh : Shared}

/-- The control state and the memory after a move satisfy `P`, whatever the backend answers. -/
def Lands (sh : Shared) (P : Shared → σ → Prop) : Option (Move σ) → Prop
  | some (.memory sh' s) => P sh' s
  | some (.backend _ next) => ∀ r, P sh (next r)
  | _ => True

/-- A property of every state holds where a step lands. -/
theorem lands_of_forall {P : Shared → σ → Prop} (h : ∀ sh s, P sh s) (m : Option (Move σ)) :
    Lands sh P m := by
  cases m with
  | none => trivial
  | some m =>
    cases m with
    | backend call next => exact fun r => h _ _
    | memory sh' s => exact h _ _
    | abort => trivial

/-- What is known of where a step lands may be weakened. -/
theorem Lands.imp {P Q : Shared → σ → Prop} {m : Option (Move σ)} (h : Lands sh P m)
    (himp : ∀ sh s, P sh s → Q sh s) : Lands sh Q m := by
  cases m with
  | none => trivial
  | some m =>
    cases m with
    | backend call next => exact fun r => himp _ _ (h r)
    | memory sh' s => exact himp _ _ h
    | abort => trivial

/-- A step of a part, seen in the whole. -/
theorem Lands.map {P : Shared → τ → Prop} {f : σ → τ} {m : Option (Move σ)}
    (h : Lands sh (fun sh s => P sh (f s)) m) : Lands sh P (m.map (Move.map f)) := by
  cases m with
  | none => trivial
  | some m =>
    cases m with
    | backend call next => exact fun r => h r
    | memory sh' s => exact h
    | abort => trivial

/-- The same for a part that returns to the whole. -/
theorem Lands.inside {P : Shared → τ → Prop} {goto : σ → τ} {ret : ρ → τ}
    {m : Option (Move (Next σ ρ))}
    (h : Lands sh (fun sh s => P sh (Next.elim goto ret s)) m) : Lands sh P (Move.inside goto ret m) :=
  Lands.map h

/-- A step that reads the view lands where its branches land. -/
theorem Lands.withView {P : Shared → σ → Prop} {k : VersionedView → Move σ}
    (h : ∀ v, sh.view = some v → Lands sh P (some (k v))) : Lands sh P (sh.withView k) := by
  unfold Shared.withView
  split
  · trivial
  · next v hv => exact h v hv

/-- Waiting changes neither the position nor the handles of the caller. -/
theorem lands_wait {P : Shared → τ → Prop} {goto : WaitPc → τ} {ret : Unit → τ} {pc : WaitPc}
    (hgoto : ∀ sh' pc, Quiet sh sh' → P sh' (goto pc)) (hret : P sh (ret ())) :
    Lands sh P (Move.inside goto ret (waitForNewerView sh pc)) := by
  refine Lands.inside ?_
  cases pc with
  | enter epoch =>
    simp only [waitForNewerView]
    split
    · exact hret
    · exact hgoto _ _ ⟨rfl, rfl, rfl, rfl, rfl⟩
  | blocked waiter =>
    simp only [waitForNewerView]
    split
    · trivial
    · exact hret

end

/-! ## The stages of opening -/

/-- The client has no handle yet. -/
def OpenPc.Unnamed : OpenPc → Prop
  | .openLog => True
  | .uniqueId .. => True
  | .construct .. => True
  | _ => False

/-- The client has become the sequencer. -/
def OpenPc.Won : OpenPc → Prop
  | .propose (.waitNew _) => True
  | .checkStripes => True
  | .initStripe => True
  | .opened => True
  | .shutdownManager => True
  | .shutdownReader => True
  | .join => True
  | .closed => True
  | _ => False

section

variable {name host : String} {options : Options} {created : Bool} {sh : Shared}

/-- Installing a view leads on, or the process aborts. -/
theorem lands_install {lb : LogBackend} {epoch : Nat} {blob : Fbs.View} {next : OpenPc}
    {P : Shared → OpenPc → Prop} (h : ∀ sh, P sh next) :
    Lands sh P (some (installMove lb sh epoch blob next)) := by
  unfold installMove
  split
  · trivial
  · split
    · trivial
    · exact h _

/-- A client that became the sequencer does not open the log again. -/
theorem openEntry_won (pc : OpenPc) (h : pc.Won) :
    Lands sh (fun _ pc' => pc'.Won) (openEntry name host options created sh pc) := by
  cases pc with
  | propose pc =>
    -- the client waits for the view that it has proposed
    cases pc with
    | waitNew wait =>
      simp only [openEntry]
      split
      · trivial
      · refine Lands.inside (Lands.inside ?_)
        refine lands_of_forall (fun _ s => ?_) _
        cases s with
        | goto wait => trivial
        | ret r =>
          show OpenPc.Won (if _ then _ else _)
          split <;> trivial
    | _ => exact h.elim
  -- nothing after that leads back to a proposal
  | checkStripes =>
    refine Lands.withView fun v _ => ?_
    show OpenPc.Won (if _ then _ else _)
    split <;> trivial
  | initStripe => trivial
  | opened => trivial
  | shutdownManager => trivial
  | shutdownReader => trivial
  | join =>
    simp only [openEntry]
    split <;> trivial
  | closed => trivial
  | _ => exact h.elim

/-- The stage without a handle is only entered from itself, and keeps the memory. -/
theorem openEntry_unnamed (pc : OpenPc) :
    Lands sh (fun sh' pc' => pc'.Unnamed → pc.Unnamed ∧ sh' = sh)
      (openEntry name host options created sh pc) := by
  -- the control states from the handle on have a name
  have hno : ∀ {pc' : OpenPc} {sh' : Shared}, ¬ pc'.Unnamed →
      pc'.Unnamed → pc.Unnamed ∧ sh' = sh := fun hn h => absurd h hn
  cases pc with
  | openLog => exact fun r _ => ⟨trivial, rfl⟩
  | uniqueId hoid pfx => exact fun r _ => ⟨trivial, rfl⟩
  | construct hoid pfx n => exact hno id
  | fetch =>
    simp only [openEntry]
    split
    · trivial
    · intro r
      refine hno ?_
      dsimp only
      split
      · exact id
      · split <;> exact id
  -- the view is there, or the opener looks again
  | install epoch blob =>
    simp only [openEntry]
    split
    · trivial
    · exact lands_install fun _ => hno id
  | checkView =>
    simp only [openEntry]
    split
    · exact hno id
    · exact hno id
  -- the proposal has won, or has given up
  | propose pc =>
    simp only [openEntry]
    split
    · trivial
    · refine Lands.inside (lands_of_forall (fun _ s => hno ?_) _)
      cases s with
      | goto pc => exact id
      | ret r =>
        cases r with
        | error e => exact id
        | ok =>
          show ¬ OpenPc.Unnamed (if _ then _ else _)
          split <;> exact id
  | checkStripes =>
    refine Lands.withView fun v _ => hno ?_
    split <;> exact id
  | initStripe => exact hno id
  | shutdownManager => exact hno id
  | shutdownReader => exact hno id
  | join =>
    simp only [openEntry]
    split
    · exact hno id
    · trivial
  | _ => trivial

end

/-! ## Positions of appends -/

/-- The counter of the sequencer of a client, before it wraps; clients have at most one. -/
def Shared.counter (sh : Shared) : Nat :=
  match sh.seqs[0]? with
  | none => 0
  | some seq => seq.position

/-- The position that an append holds, or has returned. -/
def OpPc.position? : OpPc → Option Nat
  | .start p (some _) => some p
  | .scheduleExpand _ _ p _ => some p
  | .io _ _ p _ => some p
  | .seal _ _ p _ => some p
  | .expand p _ _ => some p
  | .wait p _ _ => some p
  | .done (.ok (.position p)) => some p
  | _ => none

/-- The view that an append works with. -/
def OpPc.view? : OpPc → Option VersionedView
  | .sequence v _ => some v
  | .scheduleExpand v _ _ _ => some v
  | .io v _ _ _ => some v
  | .seal v _ _ _ => some v
  | _ => none

section

variable {options : Options} {lb : LogBackend} {data : String} {sh : Shared}

/-- Mapping a position ends in one of three states. -/
theorem lands_mapPosition {sh' : Shared} {v : VersionedView} {p : Nat} {pe : Option Nat}
    {P : Shared → OpPc → Prop} (hexpand : P sh' (.expand p pe .enter))
    (hschedule : ∀ oid, P sh' (.scheduleExpand v oid p pe)) (hio : ∀ oid, P sh' (.io v oid p pe)) :
    Lands sh P (some (mapPosition sh' v p pe)) := by
  unfold mapPosition
  split
  · trivial
  · exact hexpand
  · exact hschedule _
  · exact hio _

/-- The states that all operations share keep position and view. -/
theorem commonMove_position (pc : OpPc) :
    Lands sh (fun _ pc' => ∀ p, pc'.position? = some p → pc.position? = some p)
      (commonMove options lb sh pc) := by
  cases pc with
  | scheduleExpand v oid p pe => exact fun q hq => hq
  | expand p pe pc =>
    refine Lands.inside (lands_of_forall (fun _ s q hq => ?_) _)
    cases s with
    | goto pc' => exact hq
    | ret r =>
      cases r with
      | error e => cases hq
      | ok =>
        cases pe with
        | none => cases hq
        | some e => exact hq
  | wait p pe wait =>
    refine Lands.inside (lands_of_forall (fun _ s q hq => ?_) _)
    cases s with
    | goto wait' => exact hq
    | ret r =>
      cases pe with
      | none => cases hq
      | some e => exact hq
  | _ => trivial

/-- A sequencer was there to draw from. -/
theorem Draws.ne_nil {sh sh' : Shared} {seq : Sequencer} (h : Draws sh sh' 0 seq) :
    sh.seqs ≠ [] := by
  intro hnil
  have hf := h.found
  rw [hnil] at hf
  cases hf

/-- The position that is drawn is the counter. -/
theorem Draws.counter {sh sh' : Shared} {seq : Sequencer} (h : Draws sh sh' 0 seq) :
    sh.counter = seq.position := by
  unfold Shared.counter
  rw [h.found]

/-- What the draw leaves behind. -/
theorem Draws.next {sh sh' : Shared} {seq : Sequencer} (h : Draws sh sh' 0 seq) :
    sh'.seqs[0]? = some seq.draw := by
  rw [h.shared]
  exact List.getElem?_set_self (List.length_pos_of_ne_nil h.ne_nil)

/-- The counter after a draw. -/
theorem Draws.counter_next {sh sh' : Shared} {seq : Sequencer} (h : Draws sh sh' 0 seq) :
    sh'.counter = seq.position + 1 := by
  unfold Shared.counter
  rw [h.next]
  rfl

/-- An append draws the position `p` from its sequencer. -/
structure DrawsNext (sh sh' : Shared) (pc : OpPc) (seq : Sequencer) (p : Nat) : Prop
    extends Draws sh sh' 0 seq where
  drawing : ∃ v, pc = .sequence v 0
  position : p = seq.tail

/-- An append keeps its position, or draws the next one. -/
theorem appendOp_position (pc : OpPc) (hfirst : ∀ v i, pc = .sequence v i → i = 0) :
    Lands sh (fun sh' pc' => ∀ p, pc'.position? = some p → pc.position? = some p ∨
      ∃ seq, DrawsNext sh sh' pc seq p) (appendOp data options lb sh pc) := by
  unfold appendOp
  split
  · -- the position is kept for the next try, or there is none yet
    next p pe =>
    refine Lands.withView fun v _ => ?_
    split
    · exact fun q hq => by cases hq
    · split
      · trivial
      · next i _ seq _ =>
        split
        · next hpe =>
          rw [hpe]
          exact lands_mapPosition (fun q hq => Or.inl hq) (fun _ q hq => Or.inl hq)
            (fun _ q hq => Or.inl hq)
        · exact fun q hq => by cases hq
  · -- the counter is read and raised in one step
    next v i =>
    obtain rfl := hfirst v i rfl
    split
    · trivial
    · next seq hseq =>
      have hdraw : ∀ q, some seq.tail = some q →
          ∃ old, DrawsNext sh { sh with seqs := sh.seqs.set 0 seq.draw } (.sequence v 0) old q := by
        intro q hq
        cases hq
        exact ⟨seq, ⟨hseq, rfl⟩, ⟨v, rfl⟩, rfl⟩
      exact lands_mapPosition (fun q hq => Or.inr (hdraw q hq)) (fun _ q hq => Or.inr (hdraw q hq))
        (fun _ q hq => Or.inr (hdraw q hq))
  · -- the answer to the write: the position is kept only while the append goes on with it
    next v oid p pe =>
    intro r q hq
    dsimp only at hq
    split at hq
    · exact Or.inl hq
    · exact Or.inl hq
    · cases pe with
      | none => exact Or.inl hq
      | some e => exact Or.inl hq
    · cases hq
    · cases hq
  · -- the answer to the seal, likewise
    next v oid p pe =>
    intro r q hq
    dsimp only at hq
    split at hq
    · exact Or.inl hq
    · cases pe with
      | none => cases hq
      | some e => exact Or.inl hq
    · cases hq
  · exact (commonMove_position _).imp fun _ _ h q hq => Or.inl (h q hq)

/-- An append works with the view it read when that view had a sequencer. -/
theorem appendOp_view (pc : OpPc) :
    Lands sh (fun _ pc' => ∀ v, pc'.view? = some v → pc.view? = some v ∨
      (sh.view = some v ∧ ∃ i, v.seq = some i)) (appendOp data options lb sh pc) := by
  unfold appendOp
  split
  · -- the view is read here and nowhere else
    next p pe =>
    refine Lands.withView fun v hv => ?_
    split
    · exact fun q hq => by cases hq
    · next i hi =>
      split
      · trivial
      · have hread : ∀ q, some v = some q →
            OpPc.view? (.start p pe) = some q ∨ (sh.view = some q ∧ ∃ i, q.seq = some i) := by
          intro q hq
          cases hq
          exact Or.inr ⟨hv, i, hi⟩
        split
        · exact lands_mapPosition (fun q hq => by cases hq) (fun _ => hread) (fun _ => hread)
        · exact hread
  · -- the draw is for the view that was read
    split
    · trivial
    · exact lands_mapPosition (fun q hq => by cases hq) (fun _ q hq => Or.inl hq)
        (fun _ q hq => Or.inl hq)
  · intro r q hq
    dsimp only at hq
    split at hq
    · cases hq
    · exact Or.inl hq
    · cases hq
    · cases hq
    · cases hq
  · intro r q hq
    dsimp only at hq
    split at hq
    · exact Or.inl hq
    · cases hq
    · cases hq
  · -- the states that the operations share drop the view
    unfold commonMove
    split
    · exact fun q hq => Or.inl hq
    · refine Lands.inside (lands_of_forall (fun _ s q hq => ?_) _)
      cases s with
      | goto pc' => cases hq
      | ret r => cases r <;> cases hq
    · refine Lands.inside (lands_of_forall (fun _ s q hq => ?_) _)
      cases s <;> cases hq
    · trivial

/-- An append returns the position it wrote. -/
theorem appendOp_returns (pc : OpPc) :
    Lands sh (fun _ pc' => ∀ p, pc' = .done (.ok (.position p)) → ∃ v oid pe, pc = .io v oid p pe)
      (appendOp data options lb sh pc) := by
  have hno : ∀ {pc' : OpPc}, (∀ p, pc' ≠ .done (.ok (.position p))) →
      ∀ p, pc' = .done (.ok (.position p)) → ∃ v oid pe, pc = .io v oid p pe :=
    fun h p heq => absurd heq (h p)
  unfold appendOp
  split
  · refine Lands.withView fun v hv => ?_
    split
    · exact hno (by simp)
    · split
      · trivial
      · split
        · exact lands_mapPosition (hno (by simp)) (fun _ => hno (by simp)) (fun _ => hno (by simp))
        · exact hno (by simp)
  · split
    · trivial
    · exact lands_mapPosition (hno (by simp)) (fun _ => hno (by simp)) (fun _ => hno (by simp))
  · -- only the write returns a position
    next v oid p pe =>
    intro r q hq
    dsimp only at hq
    split at hq
    · cases hq
      exact ⟨v, oid, pe, rfl⟩
    · cases hq
    · cases hq
    · cases hq
    · cases hq
  · intro r
    refine hno ?_
    dsimp only
    split <;> simp
  · unfold commonMove
    split
    · exact hno (by simp)
    · refine Lands.inside (lands_of_forall (fun _ s => hno ?_) _)
      cases s with
      | goto pc' => simp [Next.elim]
      | ret r => cases r <;> simp [Next.elim]
    · refine Lands.inside (lands_of_forall (fun _ s => hno ?_) _)
      cases s <;> simp [Next.elim]
    · trivial

/-- An operation reads the sequencer of the view it just read. -/
def Reads (sh : Shared) (pc : OpPc) : Prop :=
  ∀ v i, pc = .sequence v i → sh.view = some v ∧ v.seq = some i

theorem appendOp_sequence (pc : OpPc) :
    Lands sh (fun _ pc' => Reads sh pc') (appendOp data options lb sh pc) := by
  have hno : ∀ {pc' : OpPc}, (∀ v i, pc' ≠ .sequence v i) → Reads sh pc' :=
    fun h v i heq => absurd heq (h v i)
  unfold appendOp
  split
  · -- the counter is read for the view that is current, and for its sequencer
    next p pe =>
    refine Lands.withView fun v hv => ?_
    split
    · exact hno (by simp)
    · next i hi =>
      split
      · trivial
      · split
        · exact lands_mapPosition (hno (by simp)) (fun _ => hno (by simp)) (fun _ => hno (by simp))
        · intro v' j heq
          cases heq
          exact ⟨hv, hi⟩
  · split
    · trivial
    · exact lands_mapPosition (hno (by simp)) (fun _ => hno (by simp)) (fun _ => hno (by simp))
  · intro r
    refine hno ?_
    dsimp only
    split <;> simp
  · intro r
    refine hno ?_
    dsimp only
    split <;> simp
  · unfold commonMove
    split
    · exact hno (by simp)
    · refine Lands.inside (lands_of_forall (fun _ s => hno ?_) _)
      cases s with
      | goto pc' => simp [Next.elim]
      | ret r => cases r <;> simp [Next.elim]
    · refine Lands.inside (lands_of_forall (fun _ s => hno ?_) _)
      cases s <;> simp [Next.elim]
    · trivial

/-- `CheckTail` reads the view that it then asks. -/
theorem tailOp_sequence (pc : OpPc) : Lands sh (fun _ pc' => Reads sh pc') (tailOp sh pc) := by
  cases pc with
  | start p pe =>
    refine Lands.withView fun v hv => ?_
    split
    · exact fun v' j heq => by cases heq
    · next i hi =>
      intro v' j heq
      cases heq
      exact ⟨hv, hi⟩
  | sequence v i =>
    simp only [tailOp]
    split
    · trivial
    · exact fun v' j heq => by cases heq
  | _ => trivial

end

end ZLog
