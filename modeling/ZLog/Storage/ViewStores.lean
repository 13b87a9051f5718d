import ZLog.Storage.Agree
import ZLog.Storage.CephAgree
import ZLog.Storage.Creating
import ZLog.Storage.ViewHistory

/-!
# The view stores of the backends

RAM keeps the views of a head object in a map beside the current epoch, LMDB one record per view
beside the head record, and Ceph one key per view in the map of the head object beside the epoch
in its header.  Each of them refines the lists of views.

`CreateLog` is one transaction on LMDB.  On RAM and Ceph it is several steps, between which the
calls of other clients may come: the head object and the link; on Ceph the first view is a
proposal of its own.

## Main results

- `RAMBackend.refinesViews`, `LMDBBackend.refinesViews`, `CephBackend.refinesViews`
- `views_gapless`: all three are gapless append-only histories.
-/

namespace ZLog

open Cls

variable {ν : Type}

/-! ## RAM -/

namespace RAMBackend

/-- The calls on the view store. -/
def ViewStep (b : RAMBackend ν) (d : ViewEvent ν) (b' : RAMBackend ν) : Prop :=
  match d with
  | .created u views reply => ∃ view, views = [view] ∧ b.createHead u.text view = (reply, b')
  | .linked name u reply => b.createLink name u.text = (reply, b')
  | .proposed u epoch view reply => b.proposeView u.hoid epoch view = (reply, b')
  | .viewed u epoch maxViews reply => b.readViews u.hoid epoch maxViews = reply ∧ b' = b

/-- The views of a log on RAM. -/
def headViews (b : RAMBackend ν) (u : Uuid) : Option (HeadViews ν) :=
  match b.objects.lookup u.hoid with
  | some (.projection proj) => some ⟨proj.epoch, proj.projections.find?⟩
  | _ => none

/-- A fresh uuid is not that of a head object. -/
def viewBackend : ViewBackend ν (RAMBackend ν) where
  step := ViewStep
  heads := headViews
  draws b d := ∀ u views reply, d = .created u views reply → b.headViews u = none
  cap n := n

/-- A head object with the views `vs`. -/
def headObject (pfx : String) (vs : List ν) : Object ν :=
  .projection ⟨vs.length, pfx, ⟨Lib.OrderedMap.numbered 1 vs, Lib.OrderedMap.sorted_numbered 1 vs⟩⟩

/-- The objects hold the lists of views. -/
def HoldsViews (b : RAMBackend ν) (A : ViewLists ν) : Prop :=
  ∀ u, match A u with
    | none => b.objects.lookup u.hoid = none
    | some vs => ∃ pfx, b.objects.lookup u.hoid = some (headObject pfx vs)

/-- The views of a list, looked up by their epochs. -/
theorem find?_headViews (vs : List ν) :
    (⟨vs.length, Lib.OrderedMap.find?
        ⟨Lib.OrderedMap.numbered 1 vs, Lib.OrderedMap.sorted_numbered 1 vs⟩⟩ : HeadViews ν) =
      ViewLists.head vs := by
  simp only [ViewLists.head, HeadViews.mk.injEq, true_and]
  funext e
  exact Lib.OrderedMap.find?_numbered 1 e vs

/-- What RAM holds is the list. -/
theorem headViews_eq {b : RAMBackend ν} {A : ViewLists ν} (hb : b.HoldsViews A) (u : Uuid) :
    b.headViews u = (A u).map ViewLists.head := by
  have hu := hb u
  unfold headViews
  cases hA : A u with
  | none =>
    rw [hA] at hu
    rw [hu]
    rfl
  | some vs =>
    rw [hA] at hu
    obtain ⟨pfx, hobj⟩ := hu
    rw [hobj]
    exact congrArg some (find?_headViews vs)

/-- Binding a head object changes one list. -/
theorem HoldsViews.bind {b : RAMBackend ν} {A : ViewLists ν} (hb : b.HoldsViews A) (u : Uuid)
    (pfx : String) (vs : List ν) :
    (b.bind u.hoid (headObject pfx vs)).HoldsViews (Function.update A u (some vs)) := by
  intro u'
  by_cases hu : u' = u
  · subst hu
    rw [Function.update_self]
    exact ⟨pfx, by rw [lookup_bind, if_pos rfl]⟩
  · rw [Function.update_of_ne hu, lookup_bind, if_neg (fun h => hu (Uuid.hoid_injective h))]
    exact hb u'

/-- A link changes no view. -/
theorem HoldsViews.link {b : RAMBackend ν} {A : ViewLists ν} (hb : b.HoldsViews A) (name : String)
    (x : Object ν) : (b.bind ("head." ++ name) x).HoldsViews A := by
  intro u
  rw [lookup_bind, if_neg (link_ne_hoid name u).symm]
  exact hb u

/-- A proposal for a head object. -/
theorem proposeView_head {b : RAMBackend ν} {u : Uuid} {pfx : String} {vs : List ν}
    (h : b.objects.lookup u.hoid = some (headObject pfx vs)) (e : Nat) (view : ν) :
    b.proposeView u.hoid e view =
      (ViewLists.proposal (some vs) e,
        if e = vs.length + 1 then b.bind u.hoid (headObject pfx (vs ++ [view])) else b) := by
  unfold proposeView ViewLists.proposal
  rw [if_neg u.hoid_ne_empty]
  -- the checks in the order of the source: epoch 0, a future epoch, a taken one
  by_cases h0 : e = 0
  · rw [if_pos h0, if_pos h0, if_neg (by omega)]
  · rw [if_neg h0, if_neg h0, h]
    simp only [headObject]
    by_cases hlt : vs.length + 1 < e
    · rw [if_pos hlt, if_pos hlt, if_neg (by omega)]
    · rw [if_neg hlt, if_neg hlt]
      by_cases hne : e = vs.length + 1
      · subst hne
        -- the key is free, and the view is put behind all others
        have hfind : (Lib.OrderedMap.find?
            ⟨Lib.OrderedMap.numbered 1 vs, Lib.OrderedMap.sorted_numbered 1 vs⟩
            (vs.length + 1)).isSome = false := by
          unfold Lib.OrderedMap.find?
          rw [Lib.OrderedMap.find?_numbered]
          simp
        have hemplace : Lib.OrderedMap.emplace
            ⟨Lib.OrderedMap.numbered 1 vs, Lib.OrderedMap.sorted_numbered 1 vs⟩
            (vs.length + 1) view =
            ⟨Lib.OrderedMap.numbered 1 (vs ++ [view]), Lib.OrderedMap.sorted_numbered 1 _⟩ := by
          apply Lib.OrderedMap.ext
          rw [Nat.add_comm]
          exact Lib.OrderedMap.insertList_numbered 1 vs view
        simp [hfind, hemplace, bind]
      · simp [hne]

/-- A read of the views of a head object. -/
theorem readViews_head {b : RAMBackend ν} {u : Uuid} {pfx : String} {vs : List ν}
    (h : b.objects.lookup u.hoid = some (headObject pfx vs)) (e n : Nat) :
    b.readViews u.hoid e n = .ok (ViewLists.window vs e n) := by
  unfold readViews ViewLists.window
  rw [if_neg u.hoid_ne_empty, h]
  simp only [headObject]
  -- a future epoch, the latest view, or the views from an epoch on
  by_cases hlt : vs.length < e
  · rw [if_pos hlt, if_neg (by omega), List.drop_eq_nil_of_le (by omega)]
    simp
  · rw [if_neg hlt]
    by_cases h0 : e = 0
    · rw [if_pos h0, if_pos h0, Lib.OrderedMap.last?, Lib.OrderedMap.getLast?_numbered,
        Nat.add_sub_cancel_left]
    · rw [if_neg h0, if_neg h0]
      have hfind : (Lib.OrderedMap.find?
          ⟨Lib.OrderedMap.numbered 1 vs, Lib.OrderedMap.sorted_numbered 1 vs⟩ e).isNone = false := by
        unfold Lib.OrderedMap.find?
        rw [Lib.OrderedMap.find?_numbered, if_pos (by omega),
          List.getElem?_eq_getElem (show e - 1 < vs.length by omega)]
        rfl
      rw [hfind, if_neg (by simp), Lib.OrderedMap.dropWhile_numbered 1 e vs (by omega),
        ram_readViewsFrom]

/-- A proposal that fails changes nothing. -/
theorem proposeView_unchanged (b : RAMBackend ν) (hoid : String) (e : Nat) (view : ν) :
    UnchangedOnError b (b.proposeView hoid e view) := by
  unfold proposeView
  refine .ite .error (.ite .error ?_)
  split
  · exact .error
  · refine .ite .error (.ite .error (.ite .error .ok))
  · exact .error

/-- **Step lemma**: every call refines the lists. -/
theorem viewStep {b b' : RAMBackend ν} {A : ViewLists ν} {d : ViewEvent ν} (hb : b.HoldsViews A)
    (hdraws : ∀ u views reply, d = .created u views reply → b.headViews u = none)
    (hstep : ViewStep b d b') : A.Answers (fun n => n) d ∧ b'.HoldsViews (A.next d) := by
  -- each event is answered by the list, and the list is what RAM holds afterwards
  cases d with
  | created u views reply =>
    obtain ⟨view, rfl, hrun⟩ := hstep
    have hnone : A u = none := by
      have hhead := hdraws u _ _ rfl
      rw [headViews_eq hb] at hhead
      exact Option.map_eq_none_iff.mp hhead
    rcases b.createHead_cases u view with ⟨hbound, -⟩ | ⟨-, heq⟩
    · have hu := hb u
      rw [hnone] at hu
      exact absurd hu hbound
    · cases heq.symm.trans hrun
      refine ⟨⟨fun _ => hnone, ?_⟩, hb.bind u u.pfx [view]⟩
      intro err h
      cases h
  -- a link that is taken is refused; a new one changes no view
  | linked name u reply =>
    rcases b.createLink_cases name u with ⟨-, heq⟩ | ⟨-, heq⟩
    · cases heq.symm.trans hstep
      refine ⟨?_, hb⟩
      intro err h
      cases h
      rfl
    · cases heq.symm.trans hstep
      refine ⟨?_, hb.link name _⟩
      intro err h
      cases h
  | proposed u e view reply =>
    have hu := hb u
    -- the log does not exist
    cases hA : A u with
    | none =>
      rw [hA] at hu
      have heq : b.proposeView u.hoid e view =
          (ViewLists.proposal (none : Option (List ν)) e, b) := by
        unfold proposeView ViewLists.proposal
        rw [if_neg u.hoid_ne_empty, hu]
        split <;> rfl
      cases heq.symm.trans hstep
      rw [ViewLists.next_proposal_none]
      exact ⟨by rw [ViewLists.Answers, hA], hb⟩
    -- the log exists: only the next epoch is accepted
    | some vs =>
      rw [hA] at hu
      obtain ⟨pfx, hobj⟩ := hu
      cases (proposeView_head hobj e view).symm.trans hstep
      rw [ViewLists.next_proposal_some hA]
      refine ⟨by rw [ViewLists.Answers, hA], ?_⟩
      by_cases he : e = vs.length + 1
      · rw [if_pos he, if_pos he]
        exact hb.bind u pfx (vs ++ [view])
      · rw [if_neg he, if_neg he]
        exact hb
  | viewed u e n reply =>
    obtain ⟨rfl, rfl⟩ := hstep
    refine ⟨?_, hb⟩
    have hu := hb u
    cases hA : A u with
    | none =>
      rw [hA] at hu
      simp only [ViewLists.Answers, hA]
      simp [readViews, u.hoid_ne_empty, hu]
    | some vs =>
      rw [hA] at hu
      obtain ⟨pfx, hobj⟩ := hu
      simp only [ViewLists.Answers, hA]
      exact ⟨_, readViews_head hobj e n, fun _ => rfl⟩

/-- RAM refines the lists of views. -/
theorem refinesViews : RefinesViews (viewBackend : ViewBackend ν (RAMBackend ν)) {} HoldsViews where
  start := fun _ => rfl
  heads := headViews_eq
  step := viewStep
  draws := fun hd u views reply heq => absurd heq (hd u views reply)
  reads := And.right
  refused := UnchangedOnError.of_error (proposeView_unchanged _ _ _ _)

end RAMBackend

/-! ## LMDB -/

/-- The view in a record. -/
def Record.view? : Record ν → Option ν
  | .view v => some v
  | _ => none

namespace LMDBBackend

/-- The calls on the view store; `CreateLog` is one transaction. -/
def ViewStep (b : LMDBBackend ν) (d : ViewEvent ν) (b' : LMDBBackend ν) : Prop :=
  match d with
  | .created u views reply =>
    ∃ name view r, views = [view] ∧ b.createLog name view u.text = (r, b') ∧
      reply = r.map fun _ => ()
  | .linked _ _ _ => False
  | .proposed u epoch view reply => b.proposeView u.hoid epoch view = (reply, b')
  | .viewed u epoch maxViews reply => b.readViews u.hoid epoch maxViews = reply ∧ b' = b

/-- The views of a log on LMDB. -/
def headViews (b : LMDBBackend ν) (u : Uuid) : Option (HeadViews ν) :=
  match b.get u.hoid with
  | some (.projection epoch _ _) =>
    some ⟨epoch, fun e => (b.get (projectionKey u.hoid e)).bind Record.view?⟩
  | _ => none

/-- A fresh uuid is not part of any key. -/
def viewBackend : ViewBackend ν (LMDBBackend ν) where
  step := ViewStep
  heads := headViews
  draws b d := ∀ u views reply, d = .created u views reply →
    b.get u.hoid = none ∧ ∀ e, b.get (projectionKey u.hoid e) = none
  cap n := n

/-- The records hold the lists of views. -/
def HoldsViews (b : LMDBBackend ν) (A : ViewLists ν) : Prop :=
  ∀ u, match A u with
    | none => b.get u.hoid = none ∧ ∀ e, b.get (projectionKey u.hoid e) = none
    | some vs => (∃ id pfx, b.get u.hoid = some (.projection vs.length id pfx)) ∧
        ∀ e, b.get (projectionKey u.hoid e) = ((ViewLists.head vs).view e).map .view

/-- What LMDB holds is the list. -/
theorem headViews_eq {b : LMDBBackend ν} {A : ViewLists ν} (hb : b.HoldsViews A) (u : Uuid) :
    b.headViews u = (A u).map ViewLists.head := by
  have hu := hb u
  unfold headViews
  cases hA : A u with
  | none =>
    rw [hA] at hu
    rw [hu.1]
    rfl
  | some vs =>
    rw [hA] at hu
    obtain ⟨⟨id, pfx, hhead⟩, hviews⟩ := hu
    rw [hhead]
    -- the records under the keys of the views are those of the list
    have hview : (fun e => (b.get (projectionKey u.hoid e)).bind Record.view?) =
        (ViewLists.head vs).view := by
      funext e
      rw [hviews e]
      cases (ViewLists.head vs).view e <;> rfl
    simp only [hview]
    rfl

/-- A store that differs in the next view of one head object. -/
theorem HoldsViews.push {b b' : LMDBBackend ν} {A : ViewLists ν} (hb : b.HoldsViews A) {u : Uuid}
    {vs : List ν} (hu : (A u).getD [] = vs) (id : Nat) (pfx : String) {view : ν}
    (hhead : b'.get u.hoid = some (.projection (vs.length + 1) id pfx))
    (hview : b'.get (projectionKey u.hoid (vs.length + 1)) = some (.view view))
    (hsame : ∀ k : Key, k ≠ .head u → k ≠ .view u (vs.length + 1) →
      b'.get k.name = b.get k.name) :
    b'.HoldsViews (Function.update A u (some (vs ++ [view]))) := by
  -- only the keys of this log's head and new view have changed
  have hviews : ∀ u' e, (u' = u → e ≠ vs.length + 1) →
      b'.get (projectionKey u'.hoid e) = b.get (projectionKey u'.hoid e) := by
    intro u' e he
    rw [projectionKey_eq]
    apply hsame
    · simp
    · intro h
      cases h
      exact he rfl rfl
  intro u'
  have hold := hb u'
  -- the log that has grown, or another one
  by_cases hne : u' = u
  · subst hne
    rw [Function.update_self]
    refine ⟨⟨id, pfx, ?_⟩, ?_⟩
    · rw [hhead, List.length_append, List.length_singleton]
    · intro e
      rw [ViewLists.head_snoc]
      dsimp only
      by_cases he : e = vs.length + 1
      · rw [he, hview, Function.update_self]
        rfl
      · rw [hviews u' e (fun _ => he), Function.update_of_ne he]
        cases hA : A u' with
        | none =>
          rw [hA] at hold hu
          cases hu
          rw [hold.2 e]
          simp [ViewLists.head]
        | some vs' =>
          rw [hA] at hold hu
          cases hu
          exact hold.2 e
  · have hhead' : b'.get u'.hoid = b.get u'.hoid := by
      rw [← Key.head_name]
      apply hsame
      · simpa using hne
      · simp
    rw [Function.update_of_ne hne, hhead']
    simp only [fun e => hviews u' e (fun h => absurd h hne)]
    exact hold

/-- The link of a new log is stored beside the views. -/
theorem withLog_holdsViews {b : LMDBBackend ν} {A : ViewLists ν} (hb : b.HoldsViews A)
    (name : String) {u : Uuid} (hu : A u = none) (view : ν) :
    (b.withLog name u view).HoldsViews (Function.update A u (some [view])) := by
  have hlink : ∀ k : Key, (b.withLog name u view).get k.name =
      if k = .view u 1 then some (.view view)
      else if k = .head u then some (.projection 1 0 u.pfx) else b.get k.name := by
    intro k
    rw [withLog, get_put_eq, if_neg (link_ne_key name k), projectionKey_eq, ← Key.head_name,
      get_put, get_put]
  have hnil : (A u).getD [] = [] := by rw [hu]; rfl
  apply hb.push hnil 0 u.pfx
  · rw [← Key.head_name, hlink]
    simp
  · rw [projectionKey_eq, hlink]
    simp
  · intro k hhead hview
    rw [hlink, if_neg (by simpa using hview), if_neg hhead]

/-- A proposal for a head object. -/
theorem proposeView_head {b : LMDBBackend ν} {u : Uuid} {vs : List ν} {id : Nat} {pfx : String}
    (h : b.get u.hoid = some (.projection vs.length id pfx))
    (hnext : b.get (projectionKey u.hoid (vs.length + 1)) = none) (e : Nat) (view : ν) :
    b.proposeView u.hoid e view =
      (ViewLists.proposal (some vs) e,
        if e = vs.length + 1 then
          (b.put (projectionKey u.hoid (vs.length + 1)) (.view view)).put u.hoid
            (.projection (vs.length + 1) id pfx)
        else b) := by
  unfold proposeView ViewLists.proposal
  rw [if_neg u.hoid_ne_empty]
  -- the checks in the order of the source: epoch 0, a future epoch, a taken one
  by_cases h0 : e = 0
  · rw [if_pos h0, if_pos h0, if_neg (by omega)]
  · rw [if_neg h0, if_neg h0, h]
    by_cases hlt : vs.length + 1 < e
    · simp [hlt, show e ≠ vs.length + 1 by omega]
    · by_cases hne : e = vs.length + 1
      · subst hne
        simp [putNew, hnext]
      · simp [hlt, hne]

/-- A read of the views of a head object. -/
theorem readViews_head {b : LMDBBackend ν} {u : Uuid} {vs : List ν} {id : Nat} {pfx : String}
    (h : b.get u.hoid = some (.projection vs.length id pfx))
    (hviews : ∀ e, b.get (projectionKey u.hoid e) = ((ViewLists.head vs).view e).map .view)
    (e n : Nat) : b.readViews u.hoid e n = .ok (ViewLists.window vs e n) := by
  have hrecord : ∀ e, b.get (Key.view u e).name =
      if 1 ≤ e then vs[e - 1]?.map .view else none := by
    intro e
    rw [← projectionKey_eq, hviews e, ViewLists.head]
    dsimp only
    split <;> rfl
  unfold readViews ViewLists.window
  rw [if_neg u.hoid_ne_empty, h]
  dsimp only
  -- a future epoch, the latest view, or the views from an epoch on
  by_cases hlt : vs.length < e
  · rw [if_pos hlt, if_neg (by omega), List.drop_eq_nil_of_le (by omega)]
    simp
  · rw [if_neg hlt]
    by_cases h0 : e = 0
    · rw [if_pos h0, if_pos h0]
      cases vs using List.reverseRecOn with
      | nil => simp
      | append_singleton vs v =>
        rw [projectionKey_eq, hrecord]
        simp
    · rw [if_neg h0, if_neg h0, lmdb_readViewsFrom hrecord e n (by omega)]

/-- A proposal that fails changes nothing. -/
theorem proposeView_unchanged (b : LMDBBackend ν) (hoid : String) (e : Nat) (view : ν) :
    UnchangedOnError b (b.proposeView hoid e view) := by
  unfold proposeView
  refine .ite .error (.ite .error ?_)
  split
  · exact .error
  · refine .ite .error (.ite .error ?_)
    split
    · exact .error
    · exact .ok
  · exact .error

/-- **Step lemma**: every call refines the lists. -/
theorem viewStep {b b' : LMDBBackend ν} {A : ViewLists ν} {d : ViewEvent ν} (hb : b.HoldsViews A)
    (hdraws : ∀ u views reply, d = .created u views reply →
      b.get u.hoid = none ∧ ∀ e, b.get (projectionKey u.hoid e) = none)
    (hstep : ViewStep b d b') : A.Answers (fun n => n) d ∧ b'.HoldsViews (A.next d) := by
  cases d with
  | created u views reply =>
    obtain ⟨name, view, r, rfl, hrun, rfl⟩ := hstep
    obtain ⟨hfresh, hviews⟩ := hdraws u _ _ rfl
    have hnone : A u = none := by
      have hhead := headViews_eq hb u
      rw [headViews, hfresh] at hhead
      exact Option.map_eq_none_iff.mp hhead.symm
    by_cases hname : name = ""
    · rw [createLog, if_pos hname] at hrun
      cases hrun
      refine ⟨⟨(fun h => by cases h), ?_⟩, hb⟩
      intro err h
      cases h
      exact Or.inr rfl
    · rcases b.createLog_cases hname u view with ⟨e, heq, htaken⟩ | ⟨-, -, -, heq⟩
      · cases heq.symm.trans hrun
        refine ⟨⟨(fun h => by cases h), ?_⟩, hb⟩
        intro err h
        cases h
        exact Or.inl (htaken hfresh (hviews 1)).1
      · cases heq.symm.trans hrun
        refine ⟨⟨fun _ => hnone, ?_⟩, withLog_holdsViews hb name hnone view⟩
        intro err h
        cases h
  | linked name u reply => exact absurd hstep id
  | proposed u e view reply =>
    have hu := hb u
    cases hA : A u with
    | none =>
      rw [hA] at hu
      have heq : b.proposeView u.hoid e view =
          (ViewLists.proposal (none : Option (List ν)) e, b) := by
        unfold proposeView ViewLists.proposal
        rw [if_neg u.hoid_ne_empty, hu.1]
        split <;> rfl
      cases heq.symm.trans hstep
      rw [ViewLists.next_proposal_none]
      exact ⟨by rw [ViewLists.Answers, hA], hb⟩
    | some vs =>
      rw [hA] at hu
      obtain ⟨⟨id, pfx, hhead⟩, hviews⟩ := hu
      have hnext : b.get (projectionKey u.hoid (vs.length + 1)) = none := by
        rw [hviews]
        simp [ViewLists.head]
      cases (proposeView_head hhead hnext e view).symm.trans hstep
      rw [ViewLists.next_proposal_some hA]
      refine ⟨by rw [ViewLists.Answers, hA], ?_⟩
      by_cases he : e = vs.length + 1
      · rw [if_pos he, if_pos he]
        have hlist : (A u).getD [] = vs := by rw [hA]; rfl
        apply hb.push hlist id pfx
        · rw [get_put_eq, if_pos rfl]
        · rw [projectionKey_eq, ← Key.head_name, get_put, if_neg (by simp), get_put, if_pos rfl]
        · intro k hkhead hkview
          rw [projectionKey_eq, ← Key.head_name, get_put, if_neg hkhead, get_put, if_neg hkview]
      · rw [if_neg he, if_neg he]
        exact hb
  | viewed u e n reply =>
    obtain ⟨rfl, rfl⟩ := hstep
    refine ⟨?_, hb⟩
    have hu := hb u
    cases hA : A u with
    | none =>
      rw [hA] at hu
      simp only [ViewLists.Answers, hA]
      simp [readViews, u.hoid_ne_empty, hu.1]
    | some vs =>
      rw [hA] at hu
      obtain ⟨⟨id, pfx, hhead⟩, hviews⟩ := hu
      simp only [ViewLists.Answers, hA]
      exact ⟨_, readViews_head hhead hviews e n, fun _ => rfl⟩

theorem refinesViews :
    RefinesViews (viewBackend : ViewBackend ν (LMDBBackend ν)) {} HoldsViews where
  start := fun _ => ⟨rfl, fun _ => rfl⟩
  heads := headViews_eq
  step := viewStep
  draws := fun hd u views reply heq => absurd heq (hd u views reply)
  reads := And.right
  refused := UnchangedOnError.of_error (proposeView_unchanged _ _ _ _)

end LMDBBackend

/-! ## Ceph -/

namespace Cls

def OmapValue.view? : OmapValue ν → Option ν
  | .view v => some v
  | .entry _ => none

/-- A head object with the views `vs`. -/
structure HeadHolds (obj : RadosObject ν) (vs : List ν) : Prop where
  header : ∃ pfx, pfx ≠ "" ∧ obj.headHeader = some ⟨vs.length, pfx⟩
  views : ∀ e, obj.omap.find? (viewKey e) = ((ViewLists.head vs).view e).map .view

theorem viewKey_injective : Function.Injective viewKey :=
  fun _ _ h => u64tostr_injective h

theorem HeadHolds.initializes {obj : RadosObject ν} {vs : List ν} (h : HeadHolds obj vs) :
    ∃ head, HeadObject.initialize (some obj) = .ok head ∧ head.epoch = vs.length ∧
      head.pfx ≠ "" := by
  obtain ⟨pfx, hpfx, hheader⟩ := h.header
  refine ⟨⟨vs.length, pfx⟩, ?_, rfl, hpfx⟩
  unfold HeadObject.initialize
  dsimp only
  rw [hheader]
  exact if_neg hpfx

/-- A proposal for a head object. -/
theorem viewCreate_head {obj : RadosObject ν} {vs : List ν} (h : HeadHolds obj vs) (e : Nat)
    (view : ν) :
    (∃ err, ViewLists.proposal (some vs) e = .error err ∧
      viewCreate e view (some obj) = .error err) ∨
    (e = vs.length + 1 ∧ ViewLists.proposal (some vs) e = .ok () ∧
      ∃ obj', viewCreate e view (some obj) = .ok obj' ∧ HeadHolds obj' (vs ++ [view])) := by
  obtain ⟨head, hinit, hepoch, hpfx⟩ := h.initializes
  unfold viewCreate ViewLists.proposal
  rw [hinit]
  by_cases h0 : e = 0
  · exact Or.inl ⟨.einval, by simp [h0]⟩
  · rw [if_neg h0, if_neg (show ¬ e < 1 by omega)]
    simp only [bind, Except.bind, Option.getD_some, hepoch]
    by_cases hlt : vs.length + 1 < e
    · exact Or.inl ⟨.einval, by simp [hlt, show e ≠ vs.length + 1 by omega]⟩
    · by_cases hne : e = vs.length + 1
      · right
        subst hne
        refine ⟨rfl, by simp, _, if_pos rfl, ?_, ?_⟩
        · exact ⟨head.pfx, hpfx, by rw [List.length_append, List.length_singleton]⟩
        · intro e
          rw [ViewLists.head_snoc]
          dsimp only
          rw [Lib.OrderedMap.find?_set]
          by_cases he : e = vs.length + 1
          · rw [he, if_pos rfl, Function.update_self]
            rfl
          · rw [if_neg (fun hk => he (viewKey_injective hk)), Function.update_of_ne he]
            exact h.views e
      · exact Or.inl ⟨.espipe, by simp [hlt, hne]⟩

/-- The loop of `view_read` returns the views from an epoch on. -/
theorem viewReadFrom_eq {obj : RadosObject ν} {vs : List ν} (h : HeadHolds obj vs) (n : Nat)
    {e : Nat} (he : 1 ≤ e) :
    viewReadFrom obj vs.length e n =
      .ok (Lib.OrderedMap.numbered e ((vs.drop (e - 1)).take n)) := by
  induction n generalizing e with
  | zero => simp [viewReadFrom]
  | succ n ih =>
    unfold viewReadFrom
    by_cases hle : e ≤ vs.length
    · rw [if_pos ⟨he, hle⟩, h.views]
      have hget : vs[e - 1]? = some vs[e - 1] := List.getElem?_eq_getElem (by omega)
      have hdrop : vs.drop (e - 1) = vs[e - 1] :: vs.drop e := by
        rw [List.drop_eq_getElem_cons (by omega), Nat.sub_add_cancel he]
      simp only [ViewLists.head, he, if_true, hget, Option.map_some]
      rw [ih (by omega), hdrop]
      simp [bind, Except.bind]
    · rw [if_neg (fun h => hle h.2), List.drop_eq_nil_of_le (by omega)]
      simp

/-- A read of the views of a head object. -/
theorem viewRead_head {obj : RadosObject ν} {vs : List ν} (h : HeadHolds obj vs) (e n : Nat) :
    ∃ l, viewRead e n (some obj) = .ok l ∧ (1 ≤ n → l = ViewLists.window vs e (min n 100)) := by
  obtain ⟨head, hinit, hepoch, -⟩ := h.initializes
  unfold viewRead ViewLists.window
  rw [hinit]
  simp only [bind, Except.bind, Option.getD_some, hepoch]
  by_cases h0 : e = 0
  · rw [if_pos h0, if_pos h0]
    cases vs using List.reverseRecOn with
    | nil =>
      refine ⟨[], ?_, fun _ => rfl⟩
      cases min n 100 <;> simp [viewReadFrom]
    | append_singleton vs v =>
      rw [viewReadFrom_eq h _ (by simp)]
      refine ⟨_, rfl, ?_⟩
      intro hn
      obtain ⟨m, hm⟩ : ∃ m, min n 100 = m + 1 := ⟨min n 100 - 1, by omega⟩
      rw [hm]
      simp
  · rw [if_neg h0, if_neg h0, viewReadFrom_eq h _ (by omega)]
    exact ⟨_, rfl, fun _ => rfl⟩

end Cls

namespace CephBackend

/-- The operations on the view store, those of `CreateLog` one by one. -/
def ViewStep (pool : Pool ν) (d : ViewEvent ν) (pool' : Pool ν) : Prop :=
  match d with
  | .created u views reply => views = [] ∧ initHeadObject pool u.hoid u.pfx = (reply, pool')
  | .linked name u reply => createLinkObject pool name u.hoid = (reply, pool')
  | .proposed u epoch view reply => proposeView pool u.hoid epoch view = (reply, pool')
  | .viewed u epoch maxViews reply => readViews pool u.hoid epoch maxViews = reply ∧ pool' = pool

/-- The views of a log on Ceph. -/
def headViews (pool : Pool ν) (u : Uuid) : Option (HeadViews ν) :=
  (pool.lookup u.hoid).bind fun obj => obj.headHeader.map fun header =>
    ⟨header.epoch, fun e => (obj.omap.find? (viewKey e)).bind OmapValue.view?⟩

/-- A uuid that is taken is drawn again. -/
def viewBackend : ViewBackend ν (Pool ν) where
  step := ViewStep
  heads := headViews
  draws _ _ := True
  cap n := min n 100

/-- The objects of the pool hold the lists of views. -/
def HoldsViews (pool : Pool ν) (A : ViewLists ν) : Prop :=
  ∀ u, match A u with
    | none => pool.lookup u.hoid = none
    | some vs => ∃ obj, pool.lookup u.hoid = some obj ∧ HeadHolds obj vs

/-- What Ceph holds is the list. -/
theorem headViews_eq {pool : Pool ν} {A : ViewLists ν} (hb : HoldsViews pool A) (u : Uuid) :
    headViews pool u = (A u).map ViewLists.head := by
  have hu := hb u
  unfold headViews
  cases hA : A u with
  | none =>
    rw [hA] at hu
    rw [hu]
    rfl
  | some vs =>
    rw [hA] at hu
    obtain ⟨obj, hobj, hheld⟩ := hu
    obtain ⟨pfx, -, hheader⟩ := hheld.header
    rw [hobj, Option.bind_some, hheader, Option.map_some, Option.map_some]
    -- the omap has the views of the list under their keys
    have hview : (fun e => (obj.omap.find? (viewKey e)).bind OmapValue.view?) =
        (ViewLists.head vs).view := by
      funext e
      rw [hheld.views e]
      cases (ViewLists.head vs).view e <;> rfl
    rw [hview]
    rfl

/-- Writing a head object changes one list. -/
theorem HoldsViews.insert {pool : Pool ν} {A : ViewLists ν} (hb : HoldsViews pool A) (u : Uuid)
    {obj : RadosObject ν} {vs : List ν} (hobj : HeadHolds obj vs) :
    HoldsViews (pool.insert u.hoid obj) (Function.update A u (some vs)) := by
  intro u'
  by_cases hu : u' = u
  · subst hu
    rw [Function.update_self]
    exact ⟨obj, AList.lookup_insert _, hobj⟩
  · rw [Function.update_of_ne hu, AList.lookup_insert_ne (fun h => hu (Uuid.hoid_injective h))]
    exact hb u'

/-- A link changes no view. -/
theorem HoldsViews.link {pool : Pool ν} {A : ViewLists ν} (hb : HoldsViews pool A) (name : String)
    (obj : RadosObject ν) : HoldsViews (pool.insert (linkObjectName name) obj) A := by
  intro u
  rw [AList.lookup_insert_ne (linkObjectName_ne_hoid name u).symm]
  exact hb u

/-- A proposal that fails changes nothing. -/
theorem proposeView_unchanged (pool : Pool ν) (hoid : String) (e : Nat) (view : ν) :
    UnchangedOnError pool (proposeView pool hoid e view) := by
  unfold proposeView
  refine .ite .error ?_
  rcases pool.operate_cases hoid (viewCreate e view) with ⟨e', -, heq⟩ | ⟨obj, -, heq⟩
  · rw [heq]
    exact .error
  · rw [heq]
    exact .ok

/-- **Step lemma**: every operation refines the lists. -/
theorem viewStep {pool pool' : Pool ν} {A : ViewLists ν} {d : ViewEvent ν}
    (hb : HoldsViews pool A) (hstep : ViewStep pool d pool') :
    A.Answers (fun n => min n 100) d ∧ HoldsViews pool' (A.next d) := by
  -- each event is answered by the list, and the list is what Ceph holds afterwards
  cases d with
  | created u views reply =>
    obtain ⟨rfl, hrun⟩ := hstep
    have hu := hb u
    unfold initHeadObject Pool.operate headInit at hrun
    rw [if_neg u.pfx_ne_empty] at hrun
    cases hA : A u with
    | none =>
      rw [hA] at hu
      rw [hu] at hrun
      cases hrun
      refine ⟨⟨fun _ => hA, fun err h => by cases h⟩, hb.insert u ⟨?_, ?_⟩⟩
      · exact ⟨u.pfx, u.pfx_ne_empty, rfl⟩
      · intro e
        simp [ViewLists.head]
    | some vs =>
      rw [hA] at hu
      obtain ⟨obj, hobj, -⟩ := hu
      rw [hobj] at hrun
      cases hrun
      refine ⟨⟨(fun h => by cases h), ?_⟩, hb⟩
      intro err h
      cases h
      exact Or.inl rfl
  -- a link that is taken is refused; a new one changes no view
  | linked name u reply =>
    unfold ViewStep createLinkObject Pool.operate at hstep
    cases hlink : pool.lookup (linkObjectName name) with
    | some obj =>
      simp only [hlink] at hstep
      cases hstep
      refine ⟨?_, hb⟩
      intro err h
      cases h
      rfl
    | none =>
      simp only [hlink] at hstep
      cases hstep
      refine ⟨?_, hb.link name _⟩
      intro err h
      cases h
  | proposed u e view reply =>
    have hu := hb u
    have hdef : proposeView pool u.hoid e view = pool.operate u.hoid (viewCreate e view) := by
      rw [proposeView, if_neg u.hoid_ne_empty]
    have hrun : pool.operate u.hoid (viewCreate e view) = (reply, pool') := hdef ▸ hstep
    unfold Pool.operate at hrun
    -- the log does not exist
    cases hA : A u with
    | none =>
      rw [hA] at hu
      rw [hu] at hrun
      have heq : viewCreate e view (none : Option (RadosObject ν)) =
          .error (if e = 0 then .einval else .enoent) := by
        unfold viewCreate
        by_cases h0 : e = 0
        · rw [if_pos h0, if_pos (show e < 1 by omega)]
        · rw [if_neg h0, if_neg (show ¬ e < 1 by omega)]
          rfl
      rw [heq] at hrun
      have hans : ViewLists.proposal (none : Option (List ν)) e =
          .error (if e = 0 then .einval else .enoent) := by
        unfold ViewLists.proposal
        split <;> rfl
      cases hrun
      rw [← hans, ViewLists.next_proposal_none]
      exact ⟨by rw [ViewLists.Answers, hA], hb⟩
    -- the log exists: only the next epoch is accepted
    | some vs =>
      rw [hA] at hu
      obtain ⟨obj, hobj, hheld⟩ := hu
      rw [hobj] at hrun
      rcases viewCreate_head hheld e view with ⟨err, hans, heq⟩ | ⟨rfl, hans, obj', heq, hheld'⟩
      · rw [heq] at hrun
        cases hrun
        exact ⟨by rw [ViewLists.Answers, hA, hans], hb⟩
      · rw [heq] at hrun
        cases hrun
        refine ⟨by rw [ViewLists.Answers, hA, hans], ?_⟩
        rw [← hans, ViewLists.next_proposal_some hA, if_pos rfl]
        exact hb.insert u hheld'
  | viewed u e n reply =>
    obtain ⟨rfl, rfl⟩ := hstep
    refine ⟨?_, hb⟩
    have hu := hb u
    have hdef : readViews pool' u.hoid e n = viewRead e n (pool'.lookup u.hoid) := by
      rw [readViews, if_neg u.hoid_ne_empty, Pool.query]
    cases hA : A u with
    | none =>
      rw [hA] at hu
      simp only [ViewLists.Answers, hA]
      rw [hdef, hu]
      rfl
    | some vs =>
      rw [hA] at hu
      obtain ⟨obj, hobj, hheld⟩ := hu
      simp only [ViewLists.Answers, hA]
      rw [hdef, hobj]
      exact viewRead_head hheld e n

/-- Ceph refines the lists of views. -/
theorem refinesViews : RefinesViews (viewBackend : ViewBackend ν (Pool ν)) ∅ HoldsViews where
  start := fun _ => rfl
  heads := headViews_eq
  step := fun hb _ hstep => viewStep hb hstep
  draws := fun _ => trivial
  reads := And.right
  refused := UnchangedOnError.of_error (proposeView_unchanged _ _ _ _)

end CephBackend

/-! ## All backends -/

/-- **The view store of every backend is a gapless append-only history.** -/
theorem views_gapless :
    Gapless (RAMBackend.viewBackend : ViewBackend ν (RAMBackend ν)) {} ∧
    Gapless (LMDBBackend.viewBackend : ViewBackend ν (LMDBBackend ν)) {} ∧
    Gapless (CephBackend.viewBackend : ViewBackend ν (Pool ν)) ∅ :=
  ⟨RAMBackend.refinesViews.gapless, LMDBBackend.refinesViews.gapless,
    CephBackend.refinesViews.gapless⟩

end ZLog
