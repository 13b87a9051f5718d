import ZLog.Lib.OrderedMap
import ZLog.Storage.Backend
import ZLog.Storage.Names
import Mathlib.Data.List.Induction
import Mathlib.Logic.Function.Basic

/-!
# The history of views

A backend keeps for each log a head object with the views of the log.  What a backend is for here
is an append-only list of views per head object: a proposal is accepted at the next epoch only,
and a read returns a run of consecutive views.

The abstract state is the list itself.  A backend that refines it keeps a gapless history,
whatever redundant counters and maps it stores.

## Main results

- `RefinesViews.run`: the abstract state follows a run of the backend.
- `RefinesViews.gapless`: a backend that refines the lists of views is a gapless history.
-/

namespace ZLog

variable {ν σ : Type}

/-! ## Events -/

/-- A call on the view store, or a part of one, with its reply. -/
inductive ViewEvent (ν : Type) where
  /-- The head object of a new log, with the views it starts with. -/
  | created (u : Uuid) (views : List ν) (reply : Ret Unit)
  /-- The link from the name of a log to its head object. -/
  | linked (name : String) (u : Uuid) (reply : Ret Unit)
  | proposed (u : Uuid) (epoch : Nat) (view : ν) (reply : Ret Unit)
  | viewed (u : Uuid) (epoch maxViews : Nat) (reply : Ret (List (Nat × ν)))

namespace ViewEvent

/-- The error that an event answers. -/
def error : ViewEvent ν → Option Errno
  | created _ _ (.error e) => some e
  | linked _ _ (.error e) => some e
  | proposed _ _ _ (.error e) => some e
  | viewed _ _ _ (.error e) => some e
  | _ => none

/-- A proposal for the epoch that returned 0. -/
def accepts (u : Uuid) (epoch : Nat) : ViewEvent ν → Bool
  | proposed u' epoch' _ (.ok ()) => u' = u ∧ epoch' = epoch
  | _ => false

/-- The event that is counted. -/
theorem eq_of_accepts {u : Uuid} {epoch : Nat} {d : ViewEvent ν}
    (h : accepts u epoch d = true) : ∃ view, d = proposed u epoch view (.ok ()) := by
  cases d with
  | proposed u' epoch' view reply =>
    cases reply with
    | error e => cases h
    | ok x =>
      obtain ⟨rfl, rfl⟩ : u' = u ∧ epoch' = epoch := of_decide_eq_true h
      exact ⟨view, rfl⟩
  | _ => cases h

end ViewEvent

/-! ## Backends -/

/-- What is stored of the views of a head object: the current epoch and the view of each epoch. -/
structure HeadViews (ν : Type) where
  epoch : Nat
  view : Nat → Option ν

/-- A backend as a view store. -/
structure ViewBackend (ν σ : Type) where
  /-- The calls and their replies. -/
  step : σ → ViewEvent ν → σ → Prop
  heads : σ → Uuid → Option (HeadViews ν)
  /-- What the random generator guarantees of the uuid of a new head object. -/
  draws : σ → ViewEvent ν → Prop
  /-- The number of views that a read of `n` views may return. -/
  cap : Nat → Nat

/-- The calls of any clients, in the order in which they take effect. -/
inductive ViewRun (B : ViewBackend ν σ) (s₀ : σ) : List (ViewEvent ν) → σ → Prop where
  | start : ViewRun B s₀ [] s₀
  | call {h : List (ViewEvent ν)} {s s' : σ} (d : ViewEvent ν) :
      ViewRun B s₀ h s → B.draws s d → B.step s d s' → ViewRun B s₀ (h ++ [d]) s'

/-- The epochs that a read is about. -/
def HeadViews.asked (hv : HeadViews ν) (epoch maxViews : Nat) : List Nat :=
  if epoch = 0 then
    if hv.epoch = 0 then [] else [hv.epoch]
  else List.range' epoch (min maxViews (hv.epoch + 1 - epoch))

/-- The view store is a gapless append-only history. -/
structure Gapless (B : ViewBackend ν σ) (s₀ : σ) : Prop where
  /-- The views of a head object are those of the epochs from 1 to the current one. -/
  gapless : ∀ {h s u hv}, ViewRun B s₀ h s → B.heads s u = some hv →
    ∀ e, (hv.view e).isSome = true ↔ 1 ≤ e ∧ e ≤ hv.epoch
  /-- A view that is stored stays as it is. -/
  immutable : ∀ {h s h' s' u hv}, ViewRun B s₀ h s → ViewRun B s h' s' → B.heads s u = some hv →
    ∃ hv', B.heads s' u = some hv' ∧ hv.epoch ≤ hv'.epoch ∧
      ∀ e v, hv.view e = some v → hv'.view e = some v
  /-- A proposal is answered after the current epoch alone. -/
  proposal : ∀ {h s s' u hv e v r}, ViewRun B s₀ h s → B.heads s u = some hv →
    B.step s (.proposed u e v r) s' →
    (r = .ok () ↔ e = hv.epoch + 1) ∧
    (r = .error .espipe ↔ 1 ≤ e ∧ e ≤ hv.epoch) ∧
    (r = .error .einval ↔ e = 0 ∨ hv.epoch + 1 < e)
  /-- An accepted proposal adds the view of its epoch, and nothing else. -/
  accepted : ∀ {h s s' u hv e v}, ViewRun B s₀ h s → B.heads s u = some hv →
    B.step s (.proposed u e v (.ok ())) s' →
    B.heads s' u = some ⟨e, Function.update hv.view e (some v)⟩ ∧
    ∀ u', u' ≠ u → B.heads s' u' = B.heads s u'
  /-- A proposal that fails changes nothing. -/
  refused : ∀ {h s s' u e v err}, ViewRun B s₀ h s →
    B.step s (.proposed u e v (.error err)) s' → s' = s
  /-- At most one proposal for an epoch is accepted. -/
  once : ∀ {h s}, ViewRun B s₀ h s → ∀ u e, (h.filter (ViewEvent.accepts u e)).length ≤ 1
  /-- A read returns the views asked for, and changes nothing. -/
  reads : ∀ {h s s' u hv e n r}, ViewRun B s₀ h s → B.heads s u = some hv → 1 ≤ n →
    B.step s (.viewed u e n r) s' →
    s' = s ∧ ∃ l, r = .ok l ∧ l.map Prod.fst = hv.asked e (B.cap n) ∧
      ∀ kv ∈ l, hv.view kv.1 = some kv.2
  /-- No call fails because of what is stored. -/
  clean : ∀ {h s}, ViewRun B s₀ h s → ∀ d ∈ h, ∀ err, d.error = some err →
    err ≠ .eio ∧ err ≠ .assertion ∧ err ≠ .badKind

/-! ## Lists of views -/

/-- The abstract state: the views of each head object, oldest first. -/
abbrev ViewLists (ν : Type) := Uuid → Option (List ν)

namespace ViewLists

/-- Epochs count from 1. -/
def head (vs : List ν) : HeadViews ν where
  epoch := vs.length
  view e := if 1 ≤ e then vs[e - 1]? else none

/-- The reply to a proposal. -/
def proposal (vs : Option (List ν)) (epoch : Nat) : Ret Unit :=
  if epoch = 0 then .error .einval
  else
    match vs with
    | none => .error .enoent
    | some vs =>
      if vs.length + 1 < epoch then .error .einval
      else if epoch ≠ vs.length + 1 then .error .espipe
      else .ok ()

/-- The views that a read returns. -/
def window (vs : List ν) (epoch maxViews : Nat) : List (Nat × ν) :=
  if epoch = 0 then (vs.getLast?.map fun v => (vs.length, v)).toList
  else Lib.OrderedMap.numbered epoch ((vs.drop (epoch - 1)).take maxViews)

/-- What an event does to the lists. -/
def next (A : ViewLists ν) : ViewEvent ν → ViewLists ν
  | .created u views (.ok ()) => Function.update A u (some views)
  | .proposed u _ view (.ok ()) => Function.update A u ((A u).map (· ++ [view]))
  | _ => A

/-- The replies that fit the lists. -/
def Answers (cap : Nat → Nat) (A : ViewLists ν) : ViewEvent ν → Prop
  | .created u _ reply =>
    (reply = .ok () → A u = none) ∧ ∀ err, reply = .error err → err = .eexist ∨ err = .einval
  | .linked _ _ reply => ∀ err, reply = .error err → err = .eexist
  | .proposed u epoch _ reply => reply = proposal (A u) epoch
  | .viewed u epoch maxViews reply =>
    match A u with
    | none => reply = .error .enoent
    | some vs => ∃ l, reply = .ok l ∧ (1 ≤ maxViews → l = window vs epoch (cap maxViews))

end ViewLists

/-! ## Refinement -/

/-- If the call fails, it leaves the store `s` as it was. -/
def UnchangedOnError {α : Type} (s : σ) (answer : Ret α × σ) : Prop :=
  ∀ err, answer.1 = .error err → answer.2 = s

/-- An error without a change. -/
theorem UnchangedOnError.error {α : Type} {s : σ} {e : Errno} :
    UnchangedOnError s ((.error e, s) : Ret α × σ) := fun _ _ => rfl

/-- No error. -/
theorem UnchangedOnError.ok {α : Type} {s s' : σ} {x : α} : UnchangedOnError s ((.ok x, s') : Ret α × σ) :=
  fun _ h => by cases h

/-- An answer that is an error. -/
theorem UnchangedOnError.of_error {α : Type} {s s' : σ} {answer : Ret α × σ} {err : Errno}
    (h : UnchangedOnError s answer) (heq : answer = (.error err, s')) : s' = s := by
  have hs := h err (by rw [heq])
  rw [heq] at hs
  exact hs

/-- A check that fails, or a branch that does, changes nothing. -/
theorem UnchangedOnError.ite {α : Type} {s : σ} {p : Prop} [Decidable p] {answer answer' : Ret α × σ}
    (h : UnchangedOnError s answer) (h' : UnchangedOnError s answer') :
    UnchangedOnError s (if p then answer else answer') := by
  split
  · exact h
  · exact h'

/-- The backend follows the lists of views through `R`. -/
structure RefinesViews (B : ViewBackend ν σ) (s₀ : σ) (R : σ → ViewLists ν → Prop) : Prop where
  start : R s₀ (fun _ => none)
  heads : ∀ {s A}, R s A → ∀ u, B.heads s u = (A u).map ViewLists.head
  step : ∀ {s s' A d}, R s A → B.draws s d → B.step s d s' →
    A.Answers B.cap d ∧ R s' (A.next d)
  draws : ∀ {s d}, (∀ u vs r, d ≠ .created u vs r) → B.draws s d
  reads : ∀ {s s' u e n r}, B.step s (.viewed u e n r) s' → s' = s
  refused : ∀ {s s' u e v err}, B.step s (.proposed u e v (.error err)) s' → s' = s

namespace ViewLists

variable {A : ViewLists ν} {vs : List ν} {u : Uuid} {cap : Nat → Nat} {d : ViewEvent ν}

/-- The epochs without a gap. -/
theorem view_isSome_iff (vs : List ν) (e : Nat) :
    ((head vs).view e).isSome = true ↔ 1 ≤ e ∧ e ≤ (head vs).epoch := by
  show (if 1 ≤ e then vs[e - 1]? else none).isSome = true ↔ 1 ≤ e ∧ e ≤ vs.length
  by_cases he : 1 ≤ e
  · rw [if_pos he]
    simp
    omega
  · rw [if_neg he]
    simp [he]

/-- A view stays under its epoch. -/
theorem head_append (vs more : List ν) {e : Nat} {v : ν} (h : (head vs).view e = some v) :
    (head (vs ++ more)).view e = some v := by
  simp only [head] at h ⊢
  split at h
  · next he =>
    have hlt := (List.getElem?_eq_some_iff.mp h).1
    rw [if_pos he, List.getElem?_append_left hlt, h]
  · cases h

/-- The lists after an accepted proposal. -/
theorem head_snoc (vs : List ν) (v : ν) :
    head (vs ++ [v]) =
      ⟨vs.length + 1, Function.update (head vs).view (vs.length + 1) (some v)⟩ := by
  simp only [head, List.length_append, List.length_singleton, HeadViews.mk.injEq, true_and]
  funext e
  by_cases he : e = vs.length + 1
  · subst he
    simp
  · rw [Function.update_of_ne he]
    by_cases hpos : 1 ≤ e
    · rw [if_pos hpos, if_pos hpos, List.getElem?_append]
      split
      · rfl
      · rw [List.getElem?_eq_none (by simp; omega), List.getElem?_eq_none (by omega)]
    · rw [if_neg hpos, if_neg hpos]

/-- A proposal that is accepted is for the next epoch. -/
theorem proposal_eq_ok {vs : Option (List ν)} {e : Nat} (h : proposal vs e = .ok ()) :
    ∃ l, vs = some l ∧ e = l.length + 1 := by
  unfold proposal at h
  split at h
  · cases h
  · cases vs with
    | none => cases h
    | some l =>
      refine ⟨l, rfl, ?_⟩
      by_contra hne
      by_cases hlt : l.length + 1 < e
      · simp [hlt] at h
      · simp [hlt, hne] at h

/-- Nothing is proposed to a head object that does not exist. -/
theorem next_proposal_none (A : ViewLists ν) (u : Uuid) (e : Nat) (v : ν) :
    A.next (.proposed u e v (proposal (none : Option (List ν)) e)) = A := by
  by_cases he : e = 0
  · simp [proposal, he, next]
  · simp [proposal, he, next]

/-- The list after a proposal. -/
theorem next_proposal_some (hu : A u = some vs) (e : Nat) (v : ν) :
    A.next (.proposed u e v (proposal (some vs) e)) =
      if e = vs.length + 1 then Function.update A u (some (vs ++ [v])) else A := by
  by_cases he : e = vs.length + 1
  · subst he
    have hok : proposal (some vs) (vs.length + 1) = .ok () := by simp [proposal]
    rw [hok, if_pos rfl]
    simp [next, hu]
  · rw [if_neg he]
    cases hr : proposal (some vs) e with
    | error err => rfl
    | ok x =>
      obtain ⟨l, hl, heq⟩ := proposal_eq_ok hr
      cases hl
      exact absurd heq he

/-- The replies of a proposal by its epoch. -/
theorem proposal_iff (vs : List ν) (e : Nat) :
    (proposal (some vs) e = .ok () ↔ e = vs.length + 1) ∧
    (proposal (some vs) e = .error .espipe ↔ 1 ≤ e ∧ e ≤ vs.length) ∧
    (proposal (some vs) e = .error .einval ↔ e = 0 ∨ vs.length + 1 < e) := by
  unfold proposal
  by_cases h0 : e = 0
  · subst h0
    simp
  · by_cases hlt : vs.length + 1 < e
    · simp only [h0, hlt, if_true, if_false]
      simp
      omega
    · by_cases hne : e = vs.length + 1
      · subst hne
        simp
      · simp only [h0, hlt, if_false, ne_eq, hne, not_false_eq_true, if_true]
        simp
        omega

/-- A read returns the views that were asked for. -/
theorem window_spec (vs : List ν) (e n : Nat) :
    (window vs e n).map Prod.fst = (head vs).asked e n ∧
      ∀ kv ∈ window vs e n, (head vs).view kv.1 = some kv.2 := by
  -- the latest view only, or a window from the epoch on
  by_cases h0 : e = 0
  · subst h0
    cases vs using List.reverseRecOn with
    | nil => simp [window, HeadViews.asked, head]
    | append_singleton vs v => simp [window, HeadViews.asked, head]
  · simp only [window, HeadViews.asked, h0, if_false, Lib.OrderedMap.keys_numbered, head]
    refine ⟨?_, ?_⟩
    · rw [List.length_take, List.length_drop]
      congr 2
      omega
    · intro kv hkv
      have hle := Lib.OrderedMap.le_of_mem_numbered hkv
      have hget := Lib.OrderedMap.getElem?_of_mem_numbered hkv
      rw [if_pos (by omega)]
      rw [List.getElem?_take] at hget
      split at hget
      · rw [List.getElem?_drop] at hget
        rw [← hget]
        congr 1
        omega
      · cases hget

/-- Lists only grow. -/
theorem next_grows (hans : A.Answers cap d) (hu : A u = some vs) :
    ∃ more, A.next d u = some (vs ++ more) := by
  have hsame : ∃ more, A u = some (vs ++ more) := ⟨[], by rw [hu, List.append_nil]⟩
  -- only a creation and a proposal that succeed change a list
  cases d with
  | created u' views reply =>
    cases reply with
    | error err => exact hsame
    | ok x =>
      have hne : u ≠ u' := by
        rintro rfl
        rw [hans.1 rfl] at hu
        cases hu
      -- the creation is of another log
      show ∃ more, Function.update A u' (some views) u = some (vs ++ more)
      rwa [Function.update_of_ne hne]
  | linked name u' reply => exact hsame
  | viewed u' e n reply => exact hsame
  | proposed u' e v reply =>
    cases reply with
    | error err => exact hsame
    | ok x =>
      show ∃ more, Function.update A u' ((A u').map (· ++ [v])) u = some (vs ++ more)
      -- the proposal is to this log, or to another one
      by_cases hne : u = u'
      · subst hne
        exact ⟨[v], by simp [hu]⟩
      · rwa [Function.update_of_ne hne]

/-- No error of an event is due to what is stored. -/
theorem clean_of_answers (hans : A.Answers cap d) {err : Errno} (herr : d.error = some err) :
    err ≠ .eio ∧ err ≠ .assertion ∧ err ≠ .badKind := by
  -- each kind of event has its own errors, and none is among the three
  cases d with
  | created u views reply =>
    cases reply with
    | ok x => cases herr
    | error e =>
      cases herr
      rcases hans.2 err rfl with rfl | rfl <;> simp
  | linked name u reply =>
    cases reply with
    | ok x => cases herr
    | error e =>
      cases herr
      rw [hans err rfl]
      simp
  | proposed u e v reply =>
    cases reply with
    | ok x => cases herr
    | error e' =>
      cases herr
      have h : .error err = proposal (A u) e := hans
      unfold proposal at h
      split at h
      · cases h
        simp
      · split at h
        · cases h
          simp
        · split at h
          · cases h
            simp
          · split at h <;> cases h
            simp
  -- a read fails only when the log is missing
  | viewed u e n reply =>
    cases reply with
    | ok l => cases herr
    | error e' =>
      cases herr
      cases hu : A u with
      | none =>
        simp only [Answers, hu] at hans
        cases hans
        simp
      | some vs =>
        simp only [Answers, hu] at hans
        obtain ⟨l, h, -⟩ := hans
        cases h

end ViewLists

/-! ## Runs of a refinement -/

namespace RefinesViews

variable {B : ViewBackend ν σ} {s₀ s s' : σ} {R : σ → ViewLists ν → Prop} {A : ViewLists ν}
  {h : List (ViewEvent ν)} {u : Uuid} {hv : HeadViews ν}

/-- What the store shows of a log is a list. -/
theorem list_of_head (hr : RefinesViews B s₀ R) (hR : R s A) (hu : B.heads s u = some hv) :
    ∃ vs, A u = some vs ∧ hv = ViewLists.head vs := by
  rw [hr.heads hR u] at hu
  obtain ⟨vs, hvs, hhv⟩ := Option.map_eq_some_iff.mp hu
  exact ⟨vs, hvs, hhv.symm⟩

/-- **Run lemma**: the lists follow the backend, and only grow. -/
theorem run (hr : RefinesViews B s₀ R) (hR : R s A) (hrun : ViewRun B s h s') :
    ∃ A', R s' A' ∧ ∀ u vs, A u = some vs → ∃ more, A' u = some (vs ++ more) := by
  induction hrun with
  | start => exact ⟨A, hR, fun u vs hu => ⟨[], by rw [hu, List.append_nil]⟩⟩
  | call d _ hdraws hstep ih =>
    obtain ⟨A', hR', hgrows⟩ := ih
    obtain ⟨hans, hnext⟩ := hr.step hR' hdraws hstep
    refine ⟨_, hnext, ?_⟩
    intro u vs hu
    obtain ⟨more, hmore⟩ := hgrows u vs hu
    obtain ⟨more', hmore'⟩ := ViewLists.next_grows hans hmore
    exact ⟨more ++ more', by rw [hmore', List.append_assoc]⟩

/-- After every run the store holds some lists. -/
theorem reached (hr : RefinesViews B s₀ R) (hrun : ViewRun B s₀ h s) : ∃ A, R s A := by
  obtain ⟨A, hA, -⟩ := hr.run hr.start hrun
  exact ⟨A, hA⟩

/-- Accepted proposals of an epoch are behind the end of the list. -/
theorem accepted_once (hr : RefinesViews B s₀ R) (hrun : ViewRun B s₀ h s) (u : Uuid) (e : Nat) :
    ∃ A, R s A ∧ (h.filter (ViewEvent.accepts u e)).length ≤ 1 ∧
      ((h.filter (ViewEvent.accepts u e)).length ≠ 0 → ∃ vs, A u = some vs ∧ e ≤ vs.length) := by
  induction hrun with
  | start => exact ⟨_, hr.start, Nat.zero_le 1, fun hne => absurd rfl hne⟩
  | @call h s s' d _ hdraws hstep ih =>
    obtain ⟨A, hR, hle, hbehind⟩ := ih
    obtain ⟨hans, hnext⟩ := hr.step hR hdraws hstep
    refine ⟨_, hnext, ?_⟩
    rw [List.filter_append, List.length_append]
    by_cases hacc : ViewEvent.accepts u e d = true
    · -- the epoch is the next one, so nothing was accepted for it before
      obtain ⟨v, rfl⟩ := ViewEvent.eq_of_accepts hacc
      obtain ⟨vs, hvs, he⟩ := ViewLists.proposal_eq_ok (Eq.symm hans)
      have hzero : (List.filter (ViewEvent.accepts u e) h).length = 0 := by
        by_contra hne
        obtain ⟨vs', hvs', hlen⟩ := hbehind hne
        cases hvs.symm.trans hvs'
        omega
      have hone : [ViewEvent.proposed u e v (.ok ())].filter (ViewEvent.accepts u e) =
          [.proposed u e v (.ok ())] := by
        simp [hacc]
      rw [hone, hzero]
      refine ⟨le_rfl, fun _ => ⟨vs ++ [v], ?_, ?_⟩⟩
      · simp [ViewLists.next, hvs]
      · rw [List.length_append, List.length_singleton, he]
    · have hnil : [d].filter (ViewEvent.accepts u e) = [] := by simp [hacc]
      rw [hnil, List.length_nil, Nat.add_zero]
      refine ⟨hle, ?_⟩
      intro hne
      obtain ⟨vs, hvs, hlen⟩ := hbehind hne
      obtain ⟨more, hmore⟩ := ViewLists.next_grows hans hvs
      exact ⟨_, hmore, by rw [List.length_append]; omega⟩

/-- No run shows an error that means a broken store. -/
theorem clean (hr : RefinesViews B s₀ R) (hrun : ViewRun B s₀ h s) :
    ∀ d ∈ h, ∀ err, d.error = some err → err ≠ .eio ∧ err ≠ .assertion ∧ err ≠ .badKind := by
  induction hrun with
  | start =>
    intro d hd
    cases hd
  | call d hrun hdraws hstep ih =>
    intro d' hd' err herr
    rcases List.mem_append.mp hd' with hd' | hd'
    · exact ih d' hd' err herr
    · cases List.mem_singleton.mp hd'
      obtain ⟨A, hR⟩ := hr.reached hrun
      exact ViewLists.clean_of_answers (hr.step hR hdraws hstep).1 herr

/-- **Refinement**: a backend that refines the lists of views is a gapless history. -/
theorem gapless (hr : RefinesViews B s₀ R) : Gapless B s₀ where
  gapless := by
    intro h s u hv hrun hu e
    obtain ⟨A, hR⟩ := hr.reached hrun
    obtain ⟨vs, -, rfl⟩ := hr.list_of_head hR hu
    exact ViewLists.view_isSome_iff vs e
  immutable := by
    intro h s h' s' u hv hrun hrun' hu
    obtain ⟨A, hR⟩ := hr.reached hrun
    obtain ⟨vs, hvs, rfl⟩ := hr.list_of_head hR hu
    obtain ⟨A', hR', hgrows⟩ := hr.run hR hrun'
    obtain ⟨more, hmore⟩ := hgrows u vs hvs
    refine ⟨ViewLists.head (vs ++ more), ?_, ?_, fun e v => ViewLists.head_append vs more⟩
    · rw [hr.heads hR', hmore, Option.map_some]
    · simp [ViewLists.head]
  proposal := by
    intro h s s' u hv e v r hrun hu hstep
    obtain ⟨A, hR⟩ := hr.reached hrun
    obtain ⟨vs, hvs, rfl⟩ := hr.list_of_head hR hu
    have hans : r = ViewLists.proposal (A u) e := (hr.step hR (hr.draws (by simp)) hstep).1
    rw [hans, hvs]
    exact ViewLists.proposal_iff vs e
  accepted := by
    intro h s s' u hv e v hrun hu hstep
    obtain ⟨A, hR⟩ := hr.reached hrun
    obtain ⟨vs, hvs, rfl⟩ := hr.list_of_head hR hu
    obtain ⟨hans, hnext⟩ := hr.step hR (hr.draws (by simp)) hstep
    obtain ⟨vs', hvs', rfl⟩ := ViewLists.proposal_eq_ok (Eq.symm hans)
    cases hvs.symm.trans hvs'
    have hA : A.next (.proposed u (vs.length + 1) v (.ok ())) =
        Function.update A u (some (vs ++ [v])) := by
      simp [ViewLists.next, hvs]
    rw [hA] at hnext
    refine ⟨?_, ?_⟩
    · rw [hr.heads hnext, Function.update_self, Option.map_some, ViewLists.head_snoc]
    · intro u' hne
      rw [hr.heads hnext, hr.heads hR, Function.update_of_ne hne]
  refused := fun _ hstep => hr.refused hstep
  once := by
    intro h s hrun u e
    obtain ⟨A, -, hle, -⟩ := hr.accepted_once hrun u e
    exact hle
  reads := by
    intro h s s' u hv e n r hrun hu hn hstep
    obtain ⟨A, hR⟩ := hr.reached hrun
    obtain ⟨vs, hvs, rfl⟩ := hr.list_of_head hR hu
    have hans := (hr.step hR (hr.draws (by simp)) hstep).1
    simp only [ViewLists.Answers, hvs] at hans
    obtain ⟨l, hl, hwindow⟩ := hans
    rw [hwindow hn] at hl
    exact ⟨hr.reads hstep, _, hl, ViewLists.window_spec vs e (B.cap n)⟩
  clean := hr.clean

end RefinesViews

end ZLog
