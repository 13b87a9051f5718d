import ZLog.System.Opens

/-!
# The positions of appends

An append draws a position from the sequencer of its client and keeps it through expansions,
retries with newer views and the creation of objects.  It gives the position up only when the
sequencer is another one, or when somebody else has used the position; while neither happens, an
append in flight ends by writing the position it has drawn.

## Main results

- `appendOp_gives`: one step of an append, which gives its position up only when it is in use.
-/

namespace ZLog

/-- The epoch of the sequencer that the position of an append was drawn from. -/
def OpPc.drawnIn? : OpPc → Option Nat
  | .start _ pe => pe
  | .scheduleExpand _ _ _ pe => pe
  | .io _ _ _ pe => pe
  | .seal _ _ _ pe => pe
  | .expand _ pe _ => pe
  | .wait _ pe _ => pe
  | _ => none

/-- The operation has not returned. -/
def OpPc.InFlight (pc : OpPc) : Prop := ∀ result, pc ≠ .done result

/-- The append holds no position, or one that was drawn from the sequencer of its client. -/
def OpPc.Holds (sh : Shared) (pc : OpPc) : Prop :=
  ∀ p, pc.position? = some p → ∃ seq, sh.seqs[0]? = some seq ∧ pc.drawnIn? = some seq.epoch

/-- One step of an append. -/
inductive AppendStep (sh : Shared) (pc : OpPc) : Shared → OpPc → Prop where
  | failed (sh' : Shared) (e : Errno) : AppendStep sh pc sh' (.done (.error e))
  | seeks (v : VersionedView) : pc.position? = none → AppendStep sh pc sh (.sequence v 0)
  | draws {sh' : Shared} {pc' : OpPc} (v : VersionedView) (seq : Sequencer) :
      pc = .sequence v 0 → Draws sh sh' 0 seq → pc'.position? = some seq.tail →
      pc'.drawnIn? = some seq.epoch → pc'.InFlight → AppendStep sh pc sh' pc'
  | keeps {sh' : Shared} {pc' : OpPc} (p : Nat) : pc.position? = some p → pc'.position? = some p →
      pc'.drawnIn? = pc.drawnIn? → sh'.seqs = sh.seqs → pc'.InFlight → AppendStep sh pc sh' pc'
  | writes (v : VersionedView) (oid : String) (p : Nat) (pe : Option Nat) : pc = .io v oid p pe →
      AppendStep sh pc sh (.done (.ok (.position p)))

/-- An append finds its position in use, and will draw another one. -/
structure GivesUp (u : Uuid) (b : Store) (sh : Shared) (pc : OpPc) (sh' : Shared) (pc' : OpPc) :
    Prop where
  taken : ∃ p, pc.position? = some p ∧ positionSlot u b p ≠ .unwritten
  shared : sh' = sh
  seeks : pc'.position? = none
  inFlight : pc'.InFlight

section

variable {u : Uuid} {name : String} {b : Store} {sh sh' : Shared} {pc : OpPc} {lb : LogBackend}
  {options : Options} {data : String}

/-- A position is mapped before it is used. -/
theorem lands_mapped {P : Shared → OpPc → Prop} {v : VersionedView} {p : Nat} {pe : Option Nat}
    (h : ∀ pc', pc'.position? = some p → pc'.drawnIn? = pe → pc'.InFlight → P sh' pc') :
    Lands sh P (some (mapPosition sh' v p pe)) :=
  lands_mapPosition (h _ rfl rfl fun _ => OpPc.noConfusion)
    (fun _ => h _ rfl rfl fun _ => OpPc.noConfusion)
    (fun _ => h _ rfl rfl fun _ => OpPc.noConfusion)

/-- The states that all operations share keep the position. -/
theorem commonMove_keeps (options : Options) (lb : LogBackend) {p e : Nat}
    (hp : pc.position? = some p) (he : pc.drawnIn? = some e) :
    Lands sh (fun sh' pc' => AppendStep sh pc sh' pc') (commonMove options lb sh pc) := by
  have hquiet := commonMove_quiet options lb sh pc
  cases pc with
  | scheduleExpand v oid q pe =>
    exact .keeps p hp hp rfl (hquiet _ _ rfl).seqs fun _ => OpPc.noConfusion
  | expand q pe pc =>
    obtain rfl : q = p := Option.some.inj hp
    obtain rfl : pe = some e := he
    cases hm : commonMove options lb sh (.expand q (some e) pc) with
    | none => trivial
    | some m =>
      cases m with
      | abort => trivial
      | memory sh' pc' =>
        have hseqs := (hquiet sh' pc' hm).seqs
        obtain ⟨s, -, rfl⟩ := Move.map_memory hm
        cases s with
        | goto pc' => exact .keeps q hp rfl rfl hseqs fun _ => OpPc.noConfusion
        | ret r =>
          cases r with
          | error e => exact .failed _ e
          | ok => exact .keeps q hp rfl rfl hseqs fun _ => OpPc.noConfusion
      | backend call next =>
        obtain ⟨k, -, rfl⟩ := Move.map_backend hm
        intro r
        dsimp only
        cases k r with
        | goto pc' => exact .keeps q hp rfl rfl rfl fun _ => OpPc.noConfusion
        | ret r =>
          cases r with
          | error e => exact .failed _ e
          | ok => exact .keeps q hp rfl rfl rfl fun _ => OpPc.noConfusion
  | wait q pe wait =>
    obtain rfl : q = p := Option.some.inj hp
    obtain rfl : pe = some e := he
    refine lands_wait (fun sh' pc' hq => ?_) ?_
    · exact .keeps q hp rfl rfl hq.seqs fun _ => OpPc.noConfusion
    · exact .keeps q hp rfl rfl rfl fun _ => OpPc.noConfusion
  | _ => trivial

/-- The write of an append succeeds, is repeated, or finds the position in use. -/
theorem appendOp_io_gives {v : VersionedView} {oid : String} {p : Nat} {pe : Option Nat}
    (h : LogOk u name b) (hlb : HandleOk u lb) (hpc : OpOk u b (.append data) (.io v oid p pe)) :
    Gives b sh (fun sh' pc' => AppendStep sh (.io v oid p pe) sh' pc' ∨
      GivesUp u b sh (.io v oid p pe) sh' pc') (appendOp data options lb sh (.io v oid p pe)) := by
  obtain ⟨-, -, hv, s, i, last, rfl, hm⟩ := hpc
  have hexec : b.exec (.write (dataOid u s i) data v.epoch p) =
      b.write (dataOid u s i) data v.epoch p := rfl
  simp only [appendOp, hlb.oid, Gives, hexec]
  rcases b.write_cases (dataOid u s i) data v.epoch p with ⟨err, hio, hw⟩ | ⟨o, hio, hu, hw⟩ |
    ⟨o, -, -, hw⟩
  · rw [hw]
    rcases h.checkIo (s := s) (i := i) hv.1 with ⟨o, hio', -⟩ | ⟨hio', -⟩ | ⟨hio', -⟩
    · rw [hio'] at hio
      cases hio
    · rw [hio'] at hio
      cases hio
      exact Or.inl (.keeps p rfl rfl rfl rfl fun _ => OpPc.noConfusion)
    · rw [hio'] at hio
      cases hio
      exact Or.inl (.keeps p rfl rfl rfl rfl fun _ => OpPc.noConfusion)
  · -- `-EROFS`: the append goes on without a position
    obtain ⟨-, -, ho, -⟩ := RAMBackend.checkIo_eq_ok.mp hio
    rw [hw]
    rw [← h.positionSlot_of_map hv hm ho] at hu
    exact Or.inr ⟨⟨p, rfl, hu⟩, rfl, rfl, fun _ => OpPc.noConfusion⟩
  · rw [hw]
    exact Or.inl (.writes v _ p pe rfl)

/-- **Appends**: one step of an append. -/
theorem appendOp_gives (h : LogOk u name b) (hlb : HandleOk u lb)
    (hpc : OpOk u b (.append data) pc) (hheld : pc.Holds sh)
    (hview : ∀ v i, sh.view = some v → v.seq = some i → i = 0)
    (hfirst : ∀ v i, pc = .sequence v i → i = 0) :
    Gives b sh (fun sh' pc' => AppendStep sh pc sh' pc' ∨ GivesUp u b sh pc sh' pc')
      (appendOp data options lb sh pc) := by
  cases pc with
  | io v oid p pe => exact appendOp_io_gives h hlb hpc
  | start p pe =>
    refine (Lands.gives (Lands.withView fun v hv => ?_)).imp fun _ _ => Or.inl
    split
    · exact .failed _ _
    · next i hi =>
      obtain rfl := hview v i hv hi
      split
      · trivial
      · next seq hseq =>
        split
        · next hpe =>
          subst hpe
          exact lands_mapped fun pc' hp hd hf => .keeps p rfl hp hd rfl hf
        · next hpe =>
          -- a position that is held comes from this sequencer
          refine .seeks v ?_
          cases pe with
          | none => rfl
          | some e =>
            obtain ⟨seq', hseq', he⟩ := hheld p rfl
            rw [hseq] at hseq'
            cases hseq'
            exact absurd he hpe
  | sequence v i =>
    obtain rfl := hfirst v i rfl
    refine Gives.imp (P := AppendStep sh (.sequence v 0)) (Lands.gives ?_) fun _ _ => Or.inl
    simp only [appendOp]
    split
    · trivial
    · next seq hseq =>
      exact lands_mapped fun pc' hp hd hf => .draws v seq rfl ⟨hseq, rfl⟩ hp hd hf
  | «seal» v oid p pe =>
    obtain ⟨seq, -, he⟩ := hheld p rfl
    obtain rfl : pe = some seq.epoch := he
    refine Gives.imp (P := AppendStep sh _) (Lands.gives fun r => ?_) fun _ _ => Or.inl
    dsimp only
    split
    · exact .keeps p rfl rfl rfl rfl fun _ => OpPc.noConfusion
    · exact .keeps p rfl rfl rfl rfl fun _ => OpPc.noConfusion
    · exact .failed _ _
  | scheduleExpand v oid p pe =>
    obtain ⟨seq, -, he⟩ := hheld p rfl
    exact (Lands.gives (commonMove_keeps options lb rfl he)).imp fun _ _ => Or.inl
  | expand p pe pc =>
    obtain ⟨seq, -, he⟩ := hheld p rfl
    exact (Lands.gives (commonMove_keeps options lb rfl he)).imp fun _ _ => Or.inl
  | wait p pe wait =>
    obtain ⟨seq, -, he⟩ := hheld p rfl
    exact (Lands.gives (commonMove_keeps options lb rfl he)).imp fun _ _ => Or.inl
  | _ => trivial

end

end ZLog
