import ZLog.System.Records
import ZLog.Mapping.Convergence

/-!
# Views and sequencer seeds

Two results about the stored views.  The history of views is monotone: every view extends the
one before, whichever of the code paths built it.  And the seed of an accepted sequencer is
safe: nothing is stored from it on, and later writers there know the sequencer's epoch.

## Main results

- `views_monotone`
- `seed_safe`
-/

namespace ZLog

variable {u : Uuid} {name : String} {w w' w₀ : World} {options : Options} {host : Host}

/-! ## The view history -/

/-- A view with what the next view may change. -/
structure Extends (e : Nat) (v v' : View) : Prop where
  map : ∀ p oid last, v.objectMap.map p = .ok (some oid, last) →
    ∃ last', v'.objectMap.map p = .ok (some oid, last')
  stripes : v.objectMap.nextStripeId ≤ v'.objectMap.nextStripeId
  minValid : v.objectMap.minValidPosition ≤ v'.objectMap.minValidPosition
  config : v'.seqConfig = v.seqConfig ∨ ∃ c, v'.seqConfig = some c ∧ c.epoch = e + 1

theorem HistoryOk.extends {vs : List View} (h : HistoryOk vs) {e : Nat} {v v' : View}
    (hv : ViewAt vs e v) (hv' : ViewAt vs (e + 1) v') : Extends e v v' := by
  have hs := h.step e v v' hv hv'
  exact ⟨fun p oid last hm => h.map_stable hv hv' (Nat.le_succ e) hm, hs.stripes, hs.minValid,
    hs.config⟩

/-- A replaced configuration does not come back. -/
theorem HistoryOk.config_replaced {vs : List View} (h : HistoryOk vs) {e₁ e₂ e₃ : Nat}
    {v₁ v₂ v₃ : View} {c : SequencerConfig} (h₁ : ViewAt vs e₁ v₁) (h₂ : ViewAt vs e₂ v₂)
    (h₃ : ViewAt vs e₃ v₃) (h₁₂ : e₁ ≤ e₂) (h₂₃ : e₂ ≤ e₃) (hc : v₁.seqConfig = some c)
    (hne : v₂.seqConfig ≠ some c) : v₃.seqConfig ≠ some c := by
  obtain ⟨c₂, hc₂, -, huniq⟩ := h.config_mono h₁ h₂ h₁₂ hc
  obtain ⟨c₃, hc₃, hle, -⟩ := h.config_mono h₂ h₃ h₂₃ hc₂
  have hold := (h.config e₁ v₁ c h₁ hc).2
  -- the replacing configuration is newer than the view of the replaced one
  have hnew : e₁ < c₂.epoch := by
    by_contra hle'
    exact hne (by rw [hc₂, huniq (by omega)])
  intro heq
  rw [hc₃] at heq
  cases heq
  omega

/-- **View history**: in every reachable state the stored views have the epochs `1..E`, each
    view extends the one before, and sequencer configurations only move forward. -/
theorem views_monotone (h₀ : World.init name u options host = some w₀)
    (h : Lib.Reaches World.step w₀ w) :
    ∃ proj vs, w.backend.objects.lookup u.hoid = some (.projection proj) ∧
      proj.epoch = vs.length ∧
      proj.projections.toList.map Prod.fst = List.range' 1 vs.length ∧
      proj.projections.toList.map (fun kv => View.decode kv.2) = vs.map .ok ∧
      (∀ e v v', ViewAt vs e v → ViewAt vs (e + 1) v' → Extends e v v') ∧
      (∀ e v c, ViewAt vs e v → v.seqConfig = some c → c.epoch ≤ e) ∧
      (∀ e e' v v' c, ViewAt vs e v → ViewAt vs e' v' → e ≤ e' → v.seqConfig = some c →
        ∃ c', v'.seqConfig = some c' ∧ c.epoch ≤ c'.epoch) ∧
      (∀ e₁ e₂ e₃ v₁ v₂ v₃ c, ViewAt vs e₁ v₁ → ViewAt vs e₂ v₂ → ViewAt vs e₃ v₃ →
        e₁ ≤ e₂ → e₂ ≤ e₃ → v₁.seqConfig = some c → v₂.seqConfig ≠ some c →
        v₃.seqConfig ≠ some c) := by
  have hI := (Inv.init h₀).of_reaches h
  obtain ⟨proj, blobs, hl, -, hep, hnum, hlen, hdec⟩ := hI.log.head_blobs
  have hhist := hI.log.history
  -- the head object numbers its blobs from 1
  refine ⟨proj, viewsOf u w.backend, hl, hep, ?_, ?_, fun e v v' => hhist.extends, ?_, ?_, ?_⟩
  · rw [hnum, ← show blobs.length = (viewsOf u w.backend).length from hlen]
    exact Lib.OrderedMap.keys_numbered 1 blobs
  · rw [hnum, ← hdec]
    exact Lib.OrderedMap.map_numbered 1 blobs View.decode
  · exact fun e v c hv hc => (hhist.config e v c hv hc).2
  · intro e e' v v' c hv hv' hle hc
    obtain ⟨c', hc', hcc, -⟩ := hhist.config_mono hv hv' hle hc
    exact ⟨c', hc', hcc⟩
  · exact fun e₁ e₂ e₃ v₁ v₂ v₃ c h₁ h₂ h₃ => hhist.config_replaced h₁ h₂ h₃

set_option maxRecDepth 100000 in
/-- In the small log, the second view is the one with the sequencer. -/
theorem views_monotone_sample :
    ∃ w, Sample.world Sample.opened = some w ∧ latestEpoch Sample.uuid w.backend = 2 ∧
      ∃ proj vs, w.backend.objects.lookup Sample.uuid.hoid = some (.projection proj) ∧
        proj.epoch = vs.length ∧ proj.projections.toList.map Prod.fst = List.range' 1 vs.length ∧
        ∀ e v v', ViewAt vs e v → ViewAt vs (e + 1) v' → Extends e v v' := by
  have hrun : (Sample.world Sample.opened).map (fun w => latestEpoch Sample.uuid w.backend) =
      some 2 := by decide +kernel
  obtain ⟨w, hw, hlat⟩ := Option.map_eq_some_iff.mp hrun
  obtain ⟨w₀, h₀, h⟩ := Sample.reaches hw
  obtain ⟨proj, vs, hl, hep, hkeys, -, hext, -⟩ := views_monotone h₀ h
  exact ⟨w, hw, hlat, proj, vs, hl, hep, hkeys, hext⟩

/-! ## Sequencer seeds -/

/-- In the step from `w` to `w'`, `ProposeView` accepts the view that a `propose_sequencer` built
    with seed `s`, at epoch `e`. -/
structure Accepts (u : Uuid) (w w' : World) (e s : Nat) : Prop where
  step : ∃ cid tid, w.step (.run cid tid) = some w' ∧ ∃ c t retries curr,
    w.clients[cid]? = some c ∧ c.threads[tid]? = some t ∧
    t.pc = .opener (.propose (.propose retries curr s)) ∧ e = curr.epoch + 1
  accepted : latestEpoch u w'.backend = e ∧ latestEpoch u w.backend < e

/-- No object of the log holds the last position of the 64-bit range: one more than what `MaxPos`
    answers does not wrap. -/
def HasRoom (u : Uuid) (b : Store) : Prop :=
  ∀ s i o x, objectAt u b s i = some o → o.maxPos = some x → x + 1 < 2 ^ 64

/-- The accepted view, and what its seed was computed from: the seed is `top` in 64 bits. -/
structure Accepted (u : Uuid) (w w' : World) (e s top : Nat) : Prop where
  seed : s = top % 2 ^ 64
  stored : ∃ v c, ViewAt (viewsOf u w'.backend) e v ∧ v.seqConfig = some c ∧ c.epoch = e ∧
    c.position = s ∧ SeedSealed u w'.backend e v top
  above : ∀ x, top = x + 1 → ∃ st i o, objectAt u w.backend st i = some o ∧ o.maxPos = some x
  free : ∀ p, top ≤ p → positionSlot u w'.backend p = .unwritten

/-- What an accepted proposal says of the views and the objects. -/
theorem Inv.accepts (hI : Inv u name w) {e s : Nat} (h : Accepts u w w' e s) :
    ∃ top, Accepted u w w' e s top := by
  obtain ⟨cid, tid, hstep, c, t, retries, curr, hc, ht, hpc, rfl⟩ := h.step
  obtain ⟨hlat, hlt⟩ := h.accepted
  obtain ⟨c', t', m, hc', -, ht', hm, hw'⟩ := World.step_run hstep
  rw [hc] at hc'
  cases hc'
  rw [ht] at ht'
  cases ht'
  have hcok := hI.clients c (List.mem_of_getElem? hc)
  have hok := hcok.threads t (List.mem_of_getElem? ht)
  rw [hpc] at hok hm
  obtain ⟨hcurr, hseed⟩ := hok
  -- the thread has a handle
  cases hlb : c.shared.backend with
  | none =>
    simp only [Pc.move, openEntry, hlb] at hm
    cases hm
  | some lb =>
    obtain ⟨hhoid, -, htok⟩ := hcok.shared.backend lb hlb
    simp only [Pc.move, openEntry, hlb] at hm
    cases hm
    have hn : NextView curr.epoch curr.view
        (curr.view.withSequencerConfig ⟨curr.epoch + 1, lb.token, s⟩) := .sequencer lb.token s htok
    have hb : w'.backend = (w.backend.proposeView lb.hoid (curr.epoch + 1)
        (curr.view.withSequencerConfig ⟨curr.epoch + 1, lb.token, s⟩).encode).2 := by
      rw [hw']
      rfl
    rw [hhoid] at hb
    rw [hb] at hlat
    -- the epoch has grown, so the proposal is the accepted one
    rcases hI.log.proposeView hcurr hn with ⟨-, hp⟩ | ⟨heq, b', hp, hviews, -⟩
    · rw [hp] at hlat
      exact absurd hlat (Nat.ne_of_lt hlt)
    · have hsame := hI.log.logAt_proposeView hcurr hn
      have hk := CallOk.exec hI.log (CallOk.proposeView hcurr hn)
      rw [show w.backend.exec (.proposeView u.hoid (curr.epoch + 1)
        (curr.view.withSequencerConfig ⟨curr.epoch + 1, lb.token, s⟩).encode) = _ from hp] at hk
      rw [hp] at hsame hb
      -- the view that was scanned is still the latest one, so the seed is what the scan found
      rcases hseed with hlt' | ⟨top, htop, habove, hsealed, hfree⟩
      · omega
      refine ⟨top, htop, ⟨(curr.view.withSequencerConfig ⟨curr.epoch + 1, lb.token, s⟩).stored,
        ⟨curr.epoch + 1, cStr lb.token, s⟩, ?_, rfl, rfl, rfl, ?_⟩, ?_, fun p hp => ?_⟩
      · rw [hb, hviews, heq]
        exact viewAt_append_last _ _
      · rw [hb]
        exact hsealed.mono hk.grows
      · intro x hx
        obtain ⟨st, i, o, -, ho, hmax⟩ := habove x hx
        exact ⟨st, i, o, ho, hmax⟩
      · -- a proposal changes no data object
        rw [hb, hk.positionSlot_eq hI.log fun oid => (untouched_congr hsame p).slot oid]
        exact hfree p hp

/-- While the objects have room the seed does not wrap. -/
theorem Accepted.seed_eq {e s top : Nat} (h : Accepted u w w' e s top)
    (hroom : HasRoom u w.backend) : s = top := by
  rw [h.seed]
  cases top with
  | zero => rfl
  | succ x =>
    obtain ⟨st, i, o, ho, hmax⟩ := h.above x rfl
    exact Nat.mod_eq_of_lt (hroom st i o x ho hmax)

/-- A write below the epoch of a sequencer does not reach its seed. -/
theorem LogOk.entry_epoch_le {b : Store} (h : LogOk u name b) {e top : Nat} {v : View}
    (hv : ViewAt (viewsOf u b) e v) (hsealed : SeedSealed u b e v top) {α : Type}
    {call : Call Fbs.View α} (hcall : CallOk u name b call) {x : String × Nat}
    (hx : x ∈ newEntries b (b.exec call).2) (hs : top ≤ x.2) :
    ∃ ep, call.entry? = some (x.1, ep, x.2) ∧ e ≤ ep := by
  obtain ⟨st, i, ep, v', last, hent, hoid, hv', hm, hep⟩ := hcall.mem_newEntries h hx
  refine ⟨ep, by rw [hent, hoid], ?_⟩
  by_contra hlt
  -- the older view maps the position, so the sequencer's view does, and the object was sealed
  obtain ⟨last', hm'⟩ := h.history.map_stable hv' hv (by omega) hm
  have hepoch := hsealed x.2 st i last' hs hm'
  omega

/-- What holds from the acceptance of a sequencer with seed `s` at epoch `e` on, when `w'` is the
    system after it. -/
structure SeedSafe (u : Uuid) (name : String) (w' : World) (e s : Nat) : Prop where
  /-- No entry is stored at or after the seed. -/
  entries : ∀ st i o p, objectAt u w'.backend st i = some o → p ∈ o.entries → p < s
  /-- No append has returned a position there. -/
  appends : ∀ x d p, w'.Returned x → x.request = .append d → x.result = .ok (.position p) → p < s
  /-- From then on entries there are created only by calls with an epoch of at least `e`. -/
  later : ∀ w₁ w₂ a, Lib.Reaches World.step w' w₁ → w₁.step a = some w₂ →
    ∀ x ∈ newEntries w₁.backend w₂.backend, s ≤ x.2 →
    ∃ cid tid c t, ∃ (α : Type) (call : Call Fbs.View α) (next : α → Pc) (ep : Nat),
      a = .run cid tid ∧ w₁.clients[cid]? = some c ∧ c.threads[tid]? = some t ∧
      t.pc.move name c = some (.backend call next) ∧
      call.entry? = some (x.1, ep, x.2) ∧ e ≤ ep

/-- **Seed safety**: a sequencer accepted while no object holds the last position of the 64-bit
    range is seeded past everything stored, and later writers there know its epoch.  With an entry
    at that position the seed has wrapped, and the entry is not below it. -/
theorem seed_safe (h₀ : World.init name u options host = some w₀)
    (h : Lib.Reaches World.step w₀ w) {e s : Nat} (ha : Accepts u w w' e s) :
    (HasRoom u w.backend → SeedSafe u name w' e s) ∧
    ∀ st i o p, objectAt u w'.backend st i = some o → p ∈ o.entries → 2 ^ 64 ≤ p + 1 →
      ¬ SeedSafe u name w' e s := by
  have hI := (Inv.init h₀).of_reaches h
  obtain ⟨top, hacc⟩ := hI.accepts ha
  constructor
  · intro hroom
    obtain rfl := hacc.seed_eq hroom
    obtain ⟨v, c, hv, -, -, -, hsealed⟩ := hacc.stored
    have hfree := hacc.free
    obtain ⟨cid, tid, hstep, -⟩ := ha.step
    have hI' := (hI.step hstep).1
    refine ⟨?_, ?_, ?_⟩
    · intro st i o p ho hp
      by_contra hge
      have hslot : positionSlot u w'.backend p = o.slot p := by
        rw [hI'.log.positionSlot_eq ((hI'.log.object st i o ho).mapped p hp),
          RAMBackend.slotAt_of_logAt ho]
      exact LogObject.slot_ne_unwritten_of_mem hp (hslot.symm.trans (hfree p (by omega)))
    · intro x d p hx hreq hres
      by_contra hge
      have hok := hI'.doneOk hx
      rw [hreq, hres, DoneOk, hfree p (by omega)] at hok
      rcases hok with hok | hok <;> cases hok
    · intro w₁ w₂ a hr hs x hx hsx
      have hI₁ := hI'.of_reaches hr
      have hk := hI'.kept hr
      rcases hI₁.backend_step hs with heq |
        ⟨cid, tid, c', t, α, call, next, ha, hc', ht, hm, hcall, -, heq⟩
      · rw [heq, newEntries_self] at hx
        cases hx
      · rw [heq] at hx
        obtain ⟨ep, hent, hle⟩ := hI₁.log.entry_epoch_le (hv.mono hk.grows.views)
          (hsealed.mono hk.grows) hcall hx hsx
        exact ⟨cid, tid, c', t, α, call, next, ep, ha, hc', ht, hm, hent, hle⟩
  · -- the seed is a `uint64_t`, so it is at most that position
    intro st i o p ho hp hlast hsafe
    have hlt := hsafe.entries st i o p ho hp
    have hs := hacc.seed
    omega

/-- The epoch before a proposed sequencer, and its seed. -/
def Pc.proposed : Pc → Option (Nat × Nat)
  | .opener (.propose (.propose _ curr seed)) => some (curr.epoch, seed)
  | _ => none

theorem Pc.proposed_eq_some {pc : Pc} {x : Nat × Nat} (h : pc.proposed = some x) :
    ∃ retries curr, pc = .opener (.propose (.propose retries curr x.2)) ∧ curr.epoch = x.1 := by
  unfold Pc.proposed at h
  split at h
  · cases h
    exact ⟨_, _, rfl, rfl⟩
  · cases h

namespace Sample

/-- In the step from `w` to `w'`, a proposal of the opening thread of a client is accepted: its
    epoch and its seed. -/
def accepted (cid : Nat) (w w' : World) : Option (Nat × Nat) :=
  (w.thread? cid 0).bind fun t => t.pc.proposed.bind fun x =>
    if latestEpoch uuid w.backend = x.1 ∧ latestEpoch uuid w'.backend = x.1 + 1 then
      some (x.1 + 1, x.2)
    else none

theorem accepts {cid e s : Nat} {w w' : World} (hs : w.step (.run cid 0) = some w')
    (h : accepted cid w w' = some (e, s)) : Accepts uuid w w' e s := by
  obtain ⟨t, ht, h⟩ := Option.bind_eq_some_iff.mp h
  obtain ⟨c, hc, htc⟩ := World.thread?_eq_some.mp ht
  obtain ⟨x, hx, h⟩ := Option.bind_eq_some_iff.mp h
  obtain ⟨retries, curr, hpc, hcurr⟩ := Pc.proposed_eq_some hx
  split at h
  · next hlat =>
    cases h
    exact ⟨⟨cid, 0, hs, c, t, retries, curr, hc, htc, hpc, by rw [hcurr]⟩, hlat.2, by omega⟩
  · cases h

/-- All objects are below the last position of the 64-bit range. -/
def roomy (b : Store) : Bool :=
  b.objects.entries.all fun object =>
    match object.2 with
    | .log o => o.maxPos.all fun x => x + 1 < 2 ^ 64
    | _ => true

theorem hasRoom {b : Store} (h : roomy b = true) : HasRoom uuid b := by
  intro s i o x ho hx
  have hmem := List.all_eq_true.mp h _ (AList.mem_lookup_iff.mp (RAMBackend.logAt_eq_some.mp ho))
  dsimp only at hmem
  rw [hx] at hmem
  exact of_decide_eq_true hmem

/-- A second client opens the log, which replaces the sequencer of the first one. -/
def openedTwice (before : List Action) : List Action :=
  before ++ .open Sample.options Sample.host :: steps 1 0 11 ++ steps 1 1 5 ++ steps 1 0 1

/-- The first client appends, and fills position 5; the second one is about to propose itself. -/
def proposing : List Action :=
  appended ++ .invoke 0 (.fill 5) :: steps 0 5 4 ++ steps 0 1 5 ++ steps 0 5 9 ++
    .open Sample.options Sample.host :: steps 1 0 9

end Sample

set_option maxRecDepth 100000 in
/-- With an entry at 0 and one ahead of it at 5, a second client is seeded at 6. -/
theorem seed_safe_sample :
    ∃ w w', Sample.world Sample.proposing = some w ∧ w.step (.run 1 0) = some w' ∧
      Accepts Sample.uuid w w' 4 6 ∧
      entryKeys w'.backend = [(dataOid Sample.uuid 5 0, 5), (dataOid Sample.uuid 0 0, 0)] ∧
      SeedSafe Sample.uuid "log" w' 4 6 := by
  have hrun : (Sample.world Sample.proposing).bind (fun w => (w.step (.run 1 0)).map fun w' =>
      (Sample.accepted 1 w w', entryKeys w'.backend, Sample.roomy w.backend)) =
      some (some (4, 6), [(dataOid Sample.uuid 5 0, 5), (dataOid Sample.uuid 0 0, 0)], true) := by
    decide +kernel
  obtain ⟨w, hw, hrun⟩ := Option.bind_eq_some_iff.mp hrun
  obtain ⟨w', hw', heq⟩ := Option.map_eq_some_iff.mp hrun
  simp only [Prod.mk.injEq] at heq
  obtain ⟨hacc, hkeys, hroom⟩ := heq
  obtain ⟨w₀, h₀, h⟩ := Sample.reaches hw
  have ha := Sample.accepts hw' hacc
  exact ⟨w, w', hw, hw', ha, hkeys, (seed_safe h₀ h ha).1 (Sample.hasRoom hroom)⟩

/-! ## The last position -/

namespace Sample

/-- Stripes of `2 ^ 31` positions: `2 ^ 33` of them make up the 64-bit range. -/
def longOptions : Options := { stripeWidth := 1, stripeSlots := 2 ^ 31 }

/-- A run of id 0 starts at position 0. -/
theorem starts_at_zero : if 0 < 0 then 0 < 0 else 0 = 0 := rfl

/-- The first stripe. -/
def firstRun : MultiStripe :=
  ⟨0, 1, 2 ^ 31, 0, 1, 2 ^ 31 - 1, Nat.one_pos, by decide, Nat.one_pos, starts_at_zero, by decide,
    by decide⟩

/-- All stripes. -/
def fullRun : MultiStripe :=
  ⟨0, 1, 2 ^ 31, 0, 2 ^ 33, 2 ^ 64 - 1, Nat.one_pos, by decide, by decide, starts_at_zero,
    by decide, by decide⟩

def firstMap : ObjectMap := ⟨1, Lib.OrderedMap.empty.emplace 0 firstRun, 0, by decide⟩

def fullMap : ObjectMap := ⟨2 ^ 33, Lib.OrderedMap.empty.emplace 0 fullRun, 0, by decide⟩

theorem firstMap_toList : firstMap.stripes.toList = [(0, firstRun)] := rfl

theorem firstMap_small : firstMap.Small := by
  intro x hx
  rw [firstMap_toList, List.mem_singleton] at hx
  subst hx
  decide

theorem firstMap_extended : firstMap.ExtendedBy longOptions (2 ^ 33 - 1) fullMap := by
  refine ⟨rfl, ?_, ?_⟩
  · intro h
    cases h
  · intro l x hl
    obtain ⟨rfl, hx⟩ := List.append_eq_singleton_iff.mp (firstMap_toList ▸ hl).symm |>.resolve_right
      (by rintro ⟨-, hnil⟩; cases hnil)
    cases hx
    exact ⟨fullRun, rfl, rfl, rfl, rfl, rfl, rfl⟩

/-- `2 ^ 33 - 1` rounds of the loop of `expand_mapping`, for a position in the last stripe. -/
theorem expandMapping_full {p : Nat} (hle : 2 ^ 64 - 2 ^ 31 ≤ p) (hlt : p < 2 ^ 64) :
    firstMap.expandMapping p longOptions = .ok (some fullMap) := by
  have hfirst : firstMap.limit + (2 ^ 33 - 1 - 1) * firstMap.stepSize longOptions =
      2 ^ 64 - 2 ^ 31 := by decide
  have hfull : fullMap.limit = 2 ^ 64 := by decide
  exact firstMap_small.expandMapping_eq ⟨by decide, by decide, by decide⟩ (by decide)
    firstMap_extended rfl (by omega) (by omega)

/-- The world after a fill of the first client has computed the full map. -/
def expandFull (tid : Nat) (w : World) : Option World :=
  w.clients[0]?.bind fun c => c.threads[tid]?.bind fun t => c.shared.backend.bind fun _ =>
    c.shared.view.bind fun v =>
      match t.pc with
      | .op (.fill q) (.expand p epoch (.start retries)) =>
        if c.shared.aborted = false ∧ c.options = longOptions ∧ v.view.objectMap = firstMap ∧
            2 ^ 64 - 2 ^ 31 ≤ p ∧ p < 2 ^ 64 then
          some (w.runMove 0 tid c t (.memory c.shared
            (.op (.fill q) (.expand p epoch (.propose retries v ⟨fullMap, v.view.seqConfig⟩)))))
        else none
      | _ => none

/-- A step of the sample that expands the map up to the last position. -/
theorem step_expandFull {w w' : World} {tid : Nat} (h : expandFull tid w = some w') :
    w.step (.run 0 tid) = some w' := by
  obtain ⟨c, hc, h⟩ := Option.bind_eq_some_iff.mp h
  obtain ⟨t, ht, h⟩ := Option.bind_eq_some_iff.mp h
  obtain ⟨lb, hlb, h⟩ := Option.bind_eq_some_iff.mp h
  obtain ⟨v, hv, h⟩ := Option.bind_eq_some_iff.mp h
  split at h
  · next q p epoch retries hpc =>
    split at h
    · next hok =>
      obtain ⟨halive, hopt, hmap, hle, hlt⟩ := hok
      cases h
      -- the expansion is known in closed form, which evaluates in one step
      have hexp : v.view.expandMapping p longOptions = .ok (some ⟨fullMap, v.view.seqConfig⟩) := by
        unfold View.expandMapping
        rw [hmap, expandMapping_full hle hlt]
      have hm : t.pc.move w.name c = some (.memory c.shared
          (.op (.fill q) (.expand p epoch (.propose retries v ⟨fullMap, v.view.seqConfig⟩)))) := by
        simp only [hpc, Pc.move, hlb, Request.run, fillOp, positionOp, commonMove, tryExpandView,
          Shared.withView, hv, hopt, hexp]
        rfl
      simp only [World.step, hc, halive, ht, hm]
      rfl
    · cases h
  · cases h

/-- The first client fills a position of the last stripe. -/
def filledTo (p : Nat) : Option World :=
  (World.init "log" uuid longOptions Sample.host).bind fun w =>
    (Lib.exec World.step w (opened ++ .invoke 0 (.fill p) :: steps 0 4 1)).bind fun w =>
      (expandFull 4 w).bind fun w =>
        Lib.exec World.step w (steps 0 4 2 ++ steps 0 1 5 ++ steps 0 4 9)

theorem filledTo_reaches {p : Nat} {w : World} (h : filledTo p = some w) :
    ∃ w₀, World.init "log" uuid longOptions Sample.host = some w₀ ∧ Lib.Reaches World.step w₀ w := by
  obtain ⟨w₀, h₀, h⟩ := Option.bind_eq_some_iff.mp h
  obtain ⟨w₁, h₁, h⟩ := Option.bind_eq_some_iff.mp h
  obtain ⟨w₂, h₂, h⟩ := Option.bind_eq_some_iff.mp h
  exact ⟨w₀, h₀, ((Lib.run_of_exec _ h₁).trans (.single trivial (step_expandFull h₂))).trans
    (Lib.run_of_exec _ h)⟩

end Sample

set_option maxRecDepth 100000 in
/-- **The seed wraps**: with an entry at the last position of the 64-bit range, the next client that
    opens the log is seeded at 0. -/
theorem seed_wraps :
    ∃ w₀ w w' o, World.init "log" Sample.uuid Sample.longOptions Sample.host = some w₀ ∧
      Lib.Reaches World.step w₀ w ∧ Accepts Sample.uuid w w' 4 0 ∧
      objectAt Sample.uuid w'.backend (2 ^ 33 - 1) 0 = some o ∧ 2 ^ 64 - 1 ∈ o.entries ∧
      ¬ SeedSafe Sample.uuid "log" w' 4 0 := by
  -- the run is evaluated, with the expansion as above
  have hrun : (Sample.filledTo (2 ^ 64 - 1)).bind (fun w =>
      (Lib.exec World.step w (.open Sample.options Sample.host :: Sample.steps 1 0 9)).bind
        fun w => (w.step (.run 1 0)).bind fun w' =>
          (objectAt Sample.uuid w'.backend (2 ^ 33 - 1) 0).map fun o =>
            (Sample.accepted 1 w w', decide (2 ^ 64 - 1 ∈ o.entries))) =
      some (some (4, 0), true) := by decide +kernel
  obtain ⟨w₁, hw₁, hrun⟩ := Option.bind_eq_some_iff.mp hrun
  obtain ⟨w, hw, hrun⟩ := Option.bind_eq_some_iff.mp hrun
  obtain ⟨w', hw', hrun⟩ := Option.bind_eq_some_iff.mp hrun
  obtain ⟨o, ho, heq⟩ := Option.map_eq_some_iff.mp hrun
  simp only [Prod.mk.injEq, decide_eq_true_eq] at heq
  obtain ⟨w₀, h₀, h₁⟩ := Sample.filledTo_reaches hw₁
  have h := h₁.trans (Lib.run_of_exec _ hw)
  have ha := Sample.accepts hw' heq.1
  refine ⟨w₀, w, w', o, h₀, h, ha, ho, heq.2, ?_⟩
  -- the entry is not below a seed of 0
  intro hsafe
  exact Nat.not_lt_zero _ (hsafe.entries _ _ o _ ho heq.2)

end ZLog
