import ZLog.Client.Waits

/-!
# Becoming the sequencer

A client that opens the log proposes itself as the sequencer until a proposal is accepted; then it
waits for a view that is newer than the one it proposed against, and the log is open.

## Main results

- `openEntry_wait`: the log is open when that wait is over.
- `openEntry_wins`: a client becomes the sequencer by its own proposal only.
-/

namespace ZLog

/-- The wait ends: the view reader is shut down, or the waiter has been released. -/
def WaitPc.Over (sh : Shared) : WaitPc → Prop
  | .enter _ => sh.readerShutdown = true
  | .blocked waiter => waiter ∉ sh.refreshWaiters

/-- The log is about to be open. -/
def OpenPc.Ready : OpenPc → Prop
  | .checkStripes => True
  | .initStripe => True
  | .opened => True
  | _ => False

/-- The thread waits for the view of its accepted proposal. -/
def OpenPc.elected? : OpenPc → Option WaitPc
  | .propose (.waitNew wait) => some wait
  | _ => none

/-- What led a thread to the wait after its election, and out of it. -/
structure WinStep (sh : Shared) (pc pc' : OpenPc) : Prop where
  waits : ∀ wait', pc'.elected? = some wait' →
    (∃ retries curr seed, pc = .propose (.propose retries curr seed)) ∨
      ∃ wait, pc.elected? = some wait ∧ wait.epoch = wait'.epoch
  ready : pc'.Ready → pc.Ready ∨ ∃ wait, pc.elected? = some wait ∧ wait.Over sh
  won : pc'.Won → pc.Won ∨ ∃ retries curr seed, pc = .propose (.propose retries curr seed)

section

variable {name host : String} {options : Options} {created : Bool} {sh : Shared} {lb : LogBackend}

theorem waitForNewerView_over (pc : WaitPc) :
    Lands sh (fun _ s => s.elim (fun pc' => pc'.epoch = pc.epoch) fun _ => pc.Over sh)
      (waitForNewerView sh pc) := by
  cases pc with
  | enter epoch =>
    simp only [waitForNewerView]
    split
    · next hs => exact hs
    · rfl
  | blocked waiter =>
    simp only [waitForNewerView]
    split
    · trivial
    · next hn => exact hn

/-- Only an accepted proposal leads to the wait, and only the end of the wait to success. -/
theorem proposeSequencer_wins (pc : ProposePc) :
    Lands sh (fun _ s => s.elim
      (fun pc' => ∀ wait', pc' = .waitNew wait' →
        (∃ retries curr seed, pc = .propose retries curr seed) ∨
          ∃ wait, pc = .waitNew wait ∧ wait.epoch = wait'.epoch)
      fun r => r = .ok () → ∃ wait, pc = .waitNew wait ∧ wait.Over sh)
      (proposeSequencer lb sh pc) := by
  -- a scan of the stripes never leads to a wait for the new view
  have hscan : ∀ {retries curr k wait} {q : Prop}, ProposePc.scan retries curr k = .waitNew wait →
      q := by
    intro retries curr k wait q heq
    have hwait := ProposePc.scan_wait? retries curr k
    rw [heq] at hwait
    cases hwait
  -- only an accepted proposal does
  cases pc with
  | start retries => exact Lands.withView fun curr _ wait' hwait => hscan hwait
  | «seal» retries curr stripe oid rest =>
    intro r
    dsimp only
    split
    · cases rest with
      | cons oid rest => exact fun wait' hwait => by cases hwait
      | nil =>
        dsimp only
        split
        · exact fun wait' hwait => by cases hwait
        · exact fun wait' hwait => by cases hwait
    · cases rest with
      | cons oid rest => exact fun wait' hwait => by cases hwait
      | nil =>
        dsimp only
        split
        · exact fun wait' hwait => by cases hwait
        · exact fun wait' hwait => by cases hwait
    · exact fun hr => by cases hr
  | maxPos retries curr stripe oid rest acc =>
    intro r
    dsimp only
    split
    · cases rest with
      | cons oid rest => exact fun wait' hwait => by cases hwait
      | nil =>
        intro wait' hwait
        unfold ProposePc.endStripe at hwait
        split at hwait
        · exact hscan hwait
        · cases hwait
    · exact fun hr => by cases hr
  | propose retries curr seed =>
    intro r
    dsimp only
    split
    · exact fun wait' _ => Or.inl ⟨_, _, _, rfl⟩
    · exact fun wait' _ => Or.inl ⟨_, _, _, rfl⟩
    · exact fun hr => by cases hr
  | waitNew wait =>
    refine Lands.inside ((waitForNewerView_over wait).imp fun _ s hs => ?_)
    cases s with
    | goto pc =>
      intro wait' hwait
      cases hwait
      exact Or.inr ⟨wait, rfl, hs.symm⟩
    | ret r => exact fun _ => ⟨wait, rfl, hs⟩
  | waitStale retries curr wait =>
    refine Lands.inside (lands_of_forall (fun _ s => ?_) _)
    cases s with
    | goto pc => exact fun wait' hwait => by cases hwait
    | ret r => exact fun wait' hwait => by cases hwait
  | check retries curr =>
    refine Lands.withView fun updated _ => ?_
    split
    · split
      · exact fun hr => by cases hr
      · exact fun wait' hwait => by cases hwait
    · exact fun hr => by cases hr
  | crash => trivial

theorem OpenPc.won_of_elected {pc : OpenPc} {wait : WaitPc} (h : pc.elected? = some wait) :
    pc.Won := by
  unfold OpenPc.elected? at h
  split at h
  · trivial
  · cases h

theorem OpenPc.Ready.won {pc : OpenPc} (h : pc.Ready) : pc.Won := by
  cases pc <;> trivial

/-- Where nothing is won. -/
theorem WinStep.lost {pc pc' : OpenPc} (h : ¬ pc'.Won) : WinStep sh pc pc' :=
  ⟨fun _ hwait => absurd (OpenPc.won_of_elected hwait) h, fun hr => absurd hr.won h,
    fun hw => absurd hw h⟩

/-- The log is being closed. -/
theorem WinStep.closes {pc pc' : OpenPc} (hwon : pc.Won) (he : pc'.elected? = none)
    (hr : ¬ pc'.Ready) : WinStep sh pc pc' :=
  ⟨fun _ hwait => (by rw [he] at hwait; cases hwait), fun h => absurd h hr, fun _ => Or.inl hwon⟩

/-- What the opening thread is waiting for, and whether it is ready, after each of its steps. -/
theorem openEntry_wait (pc : OpenPc) :
    Lands sh (fun _ pc' => WinStep sh pc pc') (openEntry name host options created sh pc) := by
  cases pc with
  | openLog =>
    intro r
    dsimp only
    split
    · split
      · exact .lost id
      · exact .lost id
    · exact .lost id
  | uniqueId hoid pfx =>
    intro r
    dsimp only
    split
    · exact .lost id
    · exact .lost id
  | construct hoid pfx n => exact .lost id
  | fetch =>
    simp only [openEntry]
    split
    · trivial
    · intro r
      dsimp only
      split
      · exact .lost id
      · split
        · exact .lost id
        · exact .lost id
  | install epoch blob =>
    simp only [openEntry]
    split
    · trivial
    · exact lands_install fun _ => .lost id
  | checkView =>
    simp only [openEntry]
    split
    · exact .lost id
    · exact .lost id
  | propose pc =>
    simp only [openEntry]
    split
    · trivial
    · refine Lands.inside ((proposeSequencer_wins pc).imp fun _ s hs => ?_)
      -- the wait begins with the proposal, or goes on with the same epoch
      cases s with
      | goto pc' =>
        cases pc' with
        | waitNew wait' =>
          rcases hs wait' rfl with ⟨retries, curr, seed, rfl⟩ | ⟨wait, rfl, hep⟩
          · have hwin : ∃ r v s, OpenPc.propose (.propose retries curr seed) =
              .propose (.propose r v s) := ⟨_, _, _, rfl⟩
            exact ⟨fun _ _ => Or.inl hwin, False.elim, fun _ => Or.inr hwin⟩
          · refine ⟨fun wait'' hwait => ?_, False.elim, fun _ => Or.inl trivial⟩
            cases hwait
            exact Or.inr ⟨wait, rfl, hep⟩
        | _ => exact .lost id
      | ret r =>
        -- the wait is over, so the client is ready
        cases r with
        | error e => exact .lost id
        | ok =>
          obtain ⟨wait, rfl, hover⟩ := hs rfl
          refine ⟨fun wait' hwait => ?_, fun _ => Or.inr ⟨wait, rfl, hover⟩, fun _ => Or.inl trivial⟩
          simp only [Next.elim] at hwait
          split at hwait <;> cases hwait
  -- from here on the client is ready
  | checkStripes =>
    refine Lands.withView fun v _ => ⟨fun wait' hwait => ?_, fun _ => Or.inl trivial,
      fun _ => Or.inl trivial⟩
    split at hwait <;> cases hwait
  | initStripe =>
    exact ⟨fun wait' hwait => (by cases hwait), fun _ => Or.inl trivial, fun _ => Or.inl trivial⟩
  | shutdownManager => exact .closes trivial rfl id
  | shutdownReader => exact .closes trivial rfl id
  | join =>
    simp only [openEntry]
    split
    · exact .closes trivial rfl id
    · trivial
  | _ => trivial

/-- **A client becomes the sequencer by its own proposal only.** -/
theorem openEntry_wins (pc : OpenPc) :
    Lands sh (fun _ pc' => pc'.Won → pc.Won ∨
      ∃ retries curr seed, pc = .propose (.propose retries curr seed))
      (openEntry name host options created sh pc) :=
  (openEntry_wait pc).imp fun _ _ h => h.won

end

end ZLog
