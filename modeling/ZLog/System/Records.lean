import ZLog.System.Invariant
import ZLog.Client.Memory

/-!
# Operation records

Threads stay in the world after they returned, with the times of their invocation and of their
return.  This module says how a thread record changes in one step, and derives what is known
about an operation in the step in which it returns.

## Main results

- `Inv.thread_step`: a record is unchanged, new, closing, or of the thread that ran.
- `Good.of_reaches`: records are well timed, and no operation runs while its client shuts down.
- `Good.return_step`: the result of an operation is the answer of the state it returns in.
- `pairs_of_reaches`: the rule for statements about two operations.
-/

namespace ZLog

/-- Thread `tid` of client `cid`. -/
def World.thread? (w : World) (cid tid : Nat) : Option Thread :=
  match w.clients[cid]? with
  | none => none
  | some c => c.threads[tid]?

/-- How the record of a thread came about in a step. -/
inductive ThreadStep (u : Uuid) (name : String) (w w' : World) (a : Action) (cid tid : Nat)
    (t' : Thread) : Prop where
  | same : w.thread? cid tid = some t' → ThreadStep u name w w' a cid tid t'
  | fresh : w.thread? cid tid = none → t'.invokedAt = w.clock → t'.doneAt = none →
      t'.created = [] → w'.backend = w.backend →
      (∀ r pc, t'.pc = .op r pc → pc = r.enter) → ThreadStep u name w w' a cid tid t'
  | closing (t : Thread) : w.thread? cid tid = some t → t.pc = .opener .opened →
      t' = { t with pc := .opener .shutdownManager } → ThreadStep u name w w' a cid tid t'
  | ran (c : Client) (t : Thread) (sh : Shared) (pc : Pc) : a = .run cid tid →
      w.clients[cid]? = some c → c.threads[tid]? = some t →
      t' = t.goto w.clock pc (newEntries w.backend w'.backend) →
      Kept u name w.backend w'.backend → PcStep u w.backend c.shared t.pc w'.backend pc →
      Moves name c t.pc w.backend sh pc w'.backend → ThreadStep u name w w' a cid tid t'

section

variable {u : Uuid} {name : String} {w w' : World} {a : Action} {cid tid : Nat} {c : Client}
  {t t' : Thread}

/-- A thread belongs to a client of the world. -/
theorem World.thread?_eq_some : w.thread? cid tid = some t ↔
    ∃ c, w.clients[cid]? = some c ∧ c.threads[tid]? = some t := by
  unfold World.thread?
  cases w.clients[cid]? with
  | none => simp
  | some c => simp

/-- The threads of a client. -/
theorem World.thread?_of_client (hc : w.clients[cid]? = some c) :
    w.thread? cid tid = c.threads[tid]? := by
  unfold World.thread?
  rw [hc]

/-- The records of the other clients stay when one client is replaced. -/
theorem World.thread?_set {cid' : Nat} (hclients : w'.clients = w.clients.set cid' c)
    (hne : cid ≠ cid') : w'.thread? cid tid = w.thread? cid tid := by
  unfold World.thread?
  rw [hclients, List.getElem?_set_ne (Ne.symm hne)]

/-- The threads of the client that was replaced. -/
theorem World.thread?_set_self (hclients : w'.clients = w.clients.set cid c)
    (hc : cid < w.clients.length) : w'.thread? cid tid = c.threads[tid]? := by
  unfold World.thread?
  rw [hclients, List.getElem?_set_self hc]

/-- An index that finds something is in range. -/
theorem lt_of_getElem?_eq_some {α : Type} {l : List α} {i : Nat} {x : α} (h : l[i]? = some x) :
    i < l.length := (List.getElem?_eq_some_iff.mp h).1

/-- An element of a list with one more element. -/
theorem getElem?_snoc {α : Type} {l : List α} {i : Nat} {x y : α} (h : (l ++ [x])[i]? = some y) :
    l[i]? = some y ∨ (l[i]? = none ∧ y = x) := by
  rcases Nat.lt_or_ge i l.length with hlt | hge
  · rw [List.getElem?_append_left hlt] at h
    exact Or.inl h
  · refine Or.inr ⟨List.getElem?_eq_none hge, ?_⟩
    exact (List.mem_singleton.mp (List.mem_of_getElem?
      ((List.getElem?_append_right hge).symm.trans h)))

/-- **Records**: how a thread record came about. -/
theorem Inv.thread_step (hI : Inv u name w) (h : w.step a = some w')
    (ht : w'.thread? cid tid = some t') : ThreadStep u name w w' a cid tid t' := by
  cases a with
  -- a new client has four threads, and the others keep theirs
  | «open» options host =>
    cases h
    obtain ⟨c, hc, ht⟩ := World.thread?_eq_some.mp ht
    rcases getElem?_snoc hc with hc | ⟨hn, rfl⟩
    · exact .same (World.thread?_eq_some.mpr ⟨c, hc, ht⟩)
    · have hmem := List.mem_of_getElem? ht
      simp only [Client.new, Client.newThreads, List.mem_cons, List.not_mem_nil, or_false] at hmem
      have hnone : w.thread? cid tid = none := by
        unfold World.thread?
        rw [hn]
      rcases hmem with rfl | rfl | rfl | rfl
      · -- opener, refresh thread, expander and stripe initialiser: none of them is an operation
        exact .fresh hnone rfl rfl rfl rfl (fun r pc hpc => by cases hpc)
      · exact .fresh hnone rfl rfl rfl rfl (fun r pc hpc => by cases hpc)
      · exact .fresh hnone rfl rfl rfl rfl (fun r pc hpc => by cases hpc)
      · exact .fresh hnone rfl rfl rfl rfl (fun r pc hpc => by cases hpc)
  -- one more thread, at the start of its operation
  | invoke cid' r =>
    simp only [World.step] at h
    split at h
    · cases h
    · next c hc =>
      split at h
      · cases h
        by_cases heq : cid = cid'
        · subst heq
          rw [World.thread?_set_self rfl (lt_of_getElem?_eq_some hc)] at ht
          rcases getElem?_snoc ht with ht | ⟨hn, rfl⟩
          · exact .same (World.thread?_eq_some.mpr ⟨c, hc, ht⟩)
          · refine .fresh ?_ rfl rfl rfl rfl ?_
            · rw [World.thread?_of_client hc, hn]
            · intro r' pc hpc
              cases hpc
              rfl
        · rw [World.thread?_set rfl heq] at ht
          exact .same ht
      · cases h
  -- the opener goes on with the shutdown
  | close cid' =>
    simp only [World.step] at h
    split at h
    · cases h
    · next c hc =>
      split at h
      · cases h
        by_cases heq : cid = cid'
        · subst heq
          rw [World.thread?_set_self rfl (lt_of_getElem?_eq_some hc)] at ht
          simp only [List.getElem?_map, Option.map_eq_some_iff] at ht
          obtain ⟨t, ht, hif⟩ := ht
          have hold : w.thread? cid tid = some t := World.thread?_eq_some.mpr ⟨c, hc, ht⟩
          split at hif
          · next hop => exact .closing t hold hop hif.symm
          · rw [← hif]
            exact .same hold
        · rw [World.thread?_set rfl heq] at ht
          exact .same ht
      · cases h
  -- the thread that ran, or another one
  | run cid' tid' =>
    obtain ⟨c, t, hc, -, ht', rfl | ⟨sh, pc, hst, hk, -, hpc, hmv⟩⟩ := hI.run_cases h
    · by_cases heq : cid = cid'
      · subst heq
        rw [World.thread?_set_self rfl (lt_of_getElem?_eq_some hc)] at ht
        exact .same (World.thread?_eq_some.mpr ⟨c, hc, ht⟩)
      · rw [World.thread?_set rfl heq] at ht
        exact .same ht
    · by_cases heq : cid = cid'
      · subst heq
        rw [World.thread?_set_self hst.clients (lt_of_getElem?_eq_some hc)] at ht
        by_cases hteq : tid = tid'
        · subst hteq
          rw [List.getElem?_set_self (lt_of_getElem?_eq_some ht')] at ht
          exact .ran c t sh pc rfl hc ht' (Option.some.inj ht).symm hk hpc hmv
        · rw [List.getElem?_set_ne (Ne.symm hteq)] at ht
          exact .same (World.thread?_eq_some.mpr ⟨c, hc, ht⟩)
      · rw [World.thread?_set hst.clients heq] at ht
        exact .same ht

/-- A thread keeps its identity: request and time of invocation. -/
theorem Inv.thread_persists (hI : Inv u name w) (h : w.step a = some w')
    (ht : w.thread? cid tid = some t) :
    ∃ t', w'.thread? cid tid = some t' ∧ t'.invokedAt = t.invokedAt ∧
      ∀ r pc, t.pc = .op r pc → ∃ pc', t'.pc = .op r pc' := by
  have hkeep : ∀ {t'}, t' = t → t'.invokedAt = t.invokedAt ∧
      ∀ r pc, t.pc = .op r pc → ∃ pc', t'.pc = .op r pc' := by
    rintro t' rfl
    exact ⟨rfl, fun r pc hpc => ⟨pc, hpc⟩⟩
  obtain ⟨c, hc, htc⟩ := World.thread?_eq_some.mp ht
  have hlt := lt_of_getElem?_eq_some hc
  have htlt := lt_of_getElem?_eq_some htc
  -- no action removes a thread or changes its request
  cases a with
  | «open» options host =>
    cases h
    refine ⟨t, ?_, hkeep rfl⟩
    unfold World.thread?
    rw [List.getElem?_append_left hlt, hc]
    exact htc
  | invoke cid' r =>
    simp only [World.step] at h
    split at h
    · cases h
    · next c' hc' =>
      split at h
      · cases h
        refine ⟨t, ?_, hkeep rfl⟩
        by_cases heq : cid = cid'
        · subst heq
          rw [hc] at hc'
          cases hc'
          rw [World.thread?_set_self rfl hlt]
          exact (List.getElem?_append_left htlt).trans htc
        · rw [World.thread?_set rfl heq]
          exact ht
      · cases h
  | close cid' =>
    simp only [World.step] at h
    split at h
    · cases h
    · next c' hc' =>
      split at h
      · cases h
        by_cases heq : cid = cid'
        · subst heq
          rw [hc] at hc'
          cases hc'
          rw [World.thread?_set_self rfl hlt]
          simp only [List.getElem?_map, htc, Option.map_some]
          by_cases hop : t.pc = .opener .opened
          · refine ⟨_, rfl, by rw [if_pos hop], fun r pc hpc => ?_⟩
            rw [hop] at hpc
            cases hpc
          · exact ⟨_, rfl, hkeep (by rw [if_neg hop])⟩
        · exact ⟨t, by rw [World.thread?_set rfl heq]; exact ht, hkeep rfl⟩
      · cases h
  | run cid' tid' =>
    obtain ⟨c', t', hc', -, ht', rfl | ⟨sh, pc, hst, -, -, hpc, -⟩⟩ := hI.run_cases h
    · refine ⟨t, ?_, hkeep rfl⟩
      by_cases heq : cid = cid'
      · subst heq
        rw [hc] at hc'
        cases hc'
        rw [World.thread?_set_self rfl hlt]
        exact htc
      · rw [World.thread?_set rfl heq]
        exact ht
    · by_cases heq : cid = cid'
      · subst heq
        rw [hc] at hc'
        cases hc'
        rw [World.thread?_set_self hst.clients hlt]
        by_cases hteq : tid = tid'
        · subst hteq
          rw [htc] at ht'
          cases ht'
          refine ⟨_, List.getElem?_set_self htlt, rfl, fun r pc' hop => ?_⟩
          rw [hop] at hpc
          obtain ⟨pc'', rfl, -⟩ := hpc
          exact ⟨pc'', rfl⟩
        · exact ⟨t, by rw [List.getElem?_set_ne (Ne.symm hteq)]; exact htc, hkeep rfl⟩
      · exact ⟨t, by rw [World.thread?_set hst.clients heq]; exact ht, hkeep rfl⟩

/-! ## Shutdown -/

/-- The thread is an operation that has not returned. -/
def Thread.Running (t : Thread) : Prop := ∃ r pc, t.pc = .op r pc ∧ ∀ result, pc ≠ .done result

/-- The view manager may be shut down. -/
def OpenPc.Closing : OpenPc → Prop
  | .shutdownReader => True
  | .join => True
  | .closed => True
  | _ => False

/-- The first thread opens and closes the log; operations run only while it is open. -/
structure LifeOk (c : Client) : Prop where
  opener : ∃ t pc, c.threads[0]? = some t ∧ t.pc = .opener pc ∧
    ((∃ t ∈ c.threads, t.Running) → pc = .opened) ∧
    (c.shared.managerShutdown = true → pc.Closing)
  others : ∀ (i : Nat) t pc, c.threads[i]? = some t → t.pc = .opener pc → i = 0

/-- While a thread runs, the view manager is not shut down. -/
theorem LifeOk.shutdown_false (h : LifeOk c) (ht : t ∈ c.threads) (hr : t.Running) :
    c.shared.managerShutdown = false := by
  obtain ⟨t₀, pc, -, -, hopen, hclose⟩ := h.opener
  rw [hopen ⟨t, ht, hr⟩] at hclose
  cases hs : c.shared.managerShutdown with
  | false => rfl
  | true => exact absurd (hclose hs) (by simp [OpenPc.Closing])

/-- An operation that is done does nothing more. -/
theorem Request.run_done (r : Request) (options : Options) (lb : LogBackend) (sh : Shared)
    (result : Ret Reply) : r.run options lb sh (.done result) = none := by
  cases r <;> rfl

/-- A thread that can move is no operation that has returned. -/
theorem Pc.move_done {r : Request} {result : Ret Reply} :
    (Pc.op r (.done result)).move name c = none := by
  simp only [Pc.move]
  split
  · rfl
  · rw [Request.run_done]
    rfl

/-- A move was possible. -/
theorem Moves.ne_none {pc pc' : Pc} {b b' : Store} {sh : Shared}
    (h : Moves name c pc b sh pc' b') : pc.move name c ≠ none := by
  cases h with
  | call call next hm => simp [hm]
  | access sh pc' hm => simp [hm]

/-- The control states of the shutdown follow each other. -/
theorem openEntry_closing {host : String} {options : Options} {created : Bool} {sh sh' : Shared}
    {pc pc' : OpenPc} (hpc : pc.Closing)
    (h : openEntry name host options created sh pc = some (.memory sh' pc')) : pc'.Closing := by
  cases pc with
  | shutdownReader =>
    cases h
    trivial
  | join =>
    simp only [openEntry] at h
    split at h
    · cases h
      trivial
    · cases h
  | _ => cases hpc <;> cases h

/-- The opening thread only makes calls before the log is open. -/
theorem openEntry_backend {host : String} {options : Options} {created : Bool} {sh : Shared}
    {pc : OpenPc} {α : Type} {call : Call Fbs.View α} {next : α → OpenPc} (hpc : pc.Closing)
    (h : openEntry name host options created sh pc = some (.backend call next)) : False := by
  cases pc with
  | shutdownReader => cases h
  | join =>
    simp only [openEntry] at h
    split at h
    · cases h
    · cases h
  | closed => cases h
  | _ => cases hpc

/-- A backend call of the whole is one of the part. -/
theorem Move.map_backend {σ τ α : Type} {f : σ → τ} {m : Option (Move σ)}
    {call : Call Fbs.View α} {next : α → τ} (h : m.map (Move.map f) = some (.backend call next)) :
    ∃ k, m = some (.backend call k) ∧ next = fun r => f (k r) := by
  cases m with
  | none => cases h
  | some m =>
    cases m with
    | memory => cases h
    | backend call' k =>
      cases h
      exact ⟨k, rfl, rfl⟩
    | abort => cases h

/-- The shutdown flag after a step of a thread. -/
theorem Pc.shutdown_step {pc pc' : Pc} {sh : Shared}
    (h : pc.move name c = some (.memory sh pc')) :
    sh.managerShutdown = c.shared.managerShutdown ∨
      (pc = .opener .shutdownManager ∧ pc' = .opener .shutdownReader) := by
  rcases Pc.move_memory h with hq | ⟨lb, e, blob, -, hi, -⟩ | ⟨data, v, i, seq, -, hd⟩ |
    ⟨hoid, pfx, id, -, -, rfl⟩ | ⟨rfl, rfl, -⟩
  · exact Or.inl hq.shutdown
  · obtain ⟨view, seqs, seq, -, -, rfl⟩ := hi.view
    exact Or.inl rfl
  · rw [hd.shared]
    exact Or.inl rfl
  · exact Or.inl rfl
  · exact Or.inr ⟨rfl, rfl⟩

/-- A client at the start of its life. -/
theorem LifeOk.new (options : Options) (host : Host) (created : Bool) (pc : OpenPc) (clock : Nat) :
    LifeOk ⟨options, host, created, {}, Client.newThreads pc clock⟩ := by
  refine ⟨⟨_, pc, rfl, rfl, ?_, fun h => by cases h⟩, ?_⟩
  · rintro ⟨t, ht, r, pc', hpc', -⟩
    simp only [Client.newThreads, List.mem_cons, List.not_mem_nil, or_false] at ht
    rcases ht with rfl | rfl | rfl | rfl <;> cases hpc'
  · intro i t pc' ht hpc'
    rcases i with - | - | - | - | i
    · rfl
    · cases ht
      cases hpc'
    · cases ht
      cases hpc'
    · cases ht
      cases hpc'
    · simp [Client.newThreads] at ht

/-- The first thread is the one that opened the log. -/
theorem LifeOk.opened {pc : OpenPc} (h : LifeOk c) (hopen : c.isOpen = true)
    (ht : c.threads[0]? = some t) (hpc : t.pc = .opener pc) : pc = .opened := by
  simp only [Client.isOpen, Bool.and_eq_true, List.any_eq_true, decide_eq_true_eq] at hopen
  obtain ⟨-, t', ht', hop⟩ := hopen
  obtain ⟨i, hi⟩ := List.mem_iff_getElem?.mp ht'
  rw [h.others i t' _ hi hop, ht] at hi
  cases hi
  rw [hpc] at hop
  cases hop
  rfl

/-- Invoking an operation on an open client. -/
theorem LifeOk.invoke (h : LifeOk c) (hopen : c.isOpen = true) (r : Request) (clock : Nat) :
    LifeOk { c with threads := c.threads ++ [⟨.op r r.enter, clock, none, []⟩] } := by
  obtain ⟨t₀, pc, ht₀, hpc, hrun, hclose⟩ := h.opener
  have hopened := h.opened hopen ht₀ hpc
  refine ⟨⟨t₀, pc, ?_, hpc, fun _ => hopened, hclose⟩, ?_⟩
  · exact (List.getElem?_append_left (lt_of_getElem?_eq_some ht₀)).trans ht₀
  · intro i t pc' ht hpc'
    rcases getElem?_snoc ht with ht | ⟨-, rfl⟩
    · exact h.others i t pc' ht hpc'
    · cases hpc'

/-- Closing an open client that is not busy: the destructor starts. -/
theorem LifeOk.close (h : LifeOk c) (hopen : c.isOpen = true) (hbusy : c.busy = false) :
    LifeOk { c with threads := c.threads.map (fun t =>
      if t.pc = .opener .opened then { t with pc := .opener .shutdownManager } else t) } := by
  obtain ⟨t₀, pc, ht₀, hpc, hrun, hclose⟩ := h.opener
  have hopened := h.opened hopen ht₀ hpc
  subst hopened
  refine ⟨⟨{ t₀ with pc := .opener .shutdownManager }, .shutdownManager, ?_, rfl, ?_, ?_⟩, ?_⟩
  · -- the opener runs the destructor
    simp only [List.getElem?_map, ht₀, Option.map_some, hpc, if_true]
  · -- no operation is running, or the client would be busy
    rintro ⟨t, ht, r, pc', hpc', hnd⟩
    obtain ⟨t', ht', rfl⟩ := List.mem_map.mp ht
    have hop : t'.pc = .op r pc' := by
      split at hpc'
      · cases hpc'
      · exact hpc'
    exfalso
    have hany : c.busy = true := by
      refine List.any_eq_true.mpr ⟨t', ht', ?_⟩
      rw [hop]
      cases pc' with
      | done result => exact absurd rfl (hnd result)
      | _ => rfl
    rw [hbusy] at hany
    cases hany
  · intro hs
    exact absurd (hclose hs) (by simp [OpenPc.Closing])
  · -- there is still only one opener
    intro i t pc' ht hpc'
    simp only [List.getElem?_map, Option.map_eq_some_iff] at ht
    obtain ⟨t', ht', rfl⟩ := ht
    split at hpc'
    · next hop => exact h.others i t' _ ht' hop
    · exact h.others i t' _ ht' hpc'

/-- A step of a thread. -/
theorem LifeOk.run {b b' : Store} {sh : Shared} {pc : Pc} {clock : Nat}
    {created : List (String × Nat)} (h : LifeOk c) (ht : c.threads[tid]? = some t)
    (hstep : PcStep u b c.shared t.pc b' pc)
    (hmove : Moves name c t.pc b sh pc b') :
    LifeOk { c with shared := sh, threads := c.threads.set tid (t.goto clock pc created) } := by
  obtain ⟨t₀, opc, ht₀, hopc, hrun, hclose⟩ := h.opener
  have htlt := lt_of_getElem?_eq_some ht
  have hnone := hmove.ne_none
  by_cases h0 : tid = 0
  · -- the first thread; it has no move while the log is open, so no operation is running
    subst h0
    rw [ht₀] at ht
    cases ht
    rw [hopc] at hstep hmove hnone
    obtain ⟨opc', rfl, -⟩ := hstep
    have hidle : ¬ ∃ t ∈ c.threads, t.Running := by
      intro hr
      rw [hrun hr] at hnone
      exact hnone rfl
    refine ⟨⟨_, opc', List.getElem?_set_self htlt, rfl, ?_, ?_⟩, ?_⟩
    · rintro ⟨t, ht, hr⟩
      rcases List.mem_or_eq_of_mem_set ht with ht | rfl
      · exact absurd ⟨t, ht, hr⟩ hidle
      · obtain ⟨r, pc', hpc', -⟩ := hr
        cases hpc'
    · intro hs
      generalize hto : Pc.opener opc' = dest at hmove
      cases hmove with
      | call call next hm =>
        obtain ⟨k, hk, -⟩ := Move.map_backend hm
        exact (openEntry_backend (hclose hs) hk).elim
      | access sh pc' hm =>
        subst hto
        rcases Pc.shutdown_step hm with heq | ⟨-, hpc'⟩
        · obtain ⟨s, hk, hs'⟩ := Move.map_memory hm
          cases hs'
          exact openEntry_closing (hclose (heq ▸ hs)) hk
        · cases hpc'
          trivial
    · intro i t pc' ht hpc'
      by_cases hi : i = 0
      · exact hi
      · rw [List.getElem?_set_ne (Ne.symm hi)] at ht
        exact h.others i t pc' ht hpc'
  · -- another thread; it is no opener before and after
    have hne : ∀ opc, t.pc ≠ .opener opc := fun opc hop => h0 (h.others tid t opc ht hop)
    have hne' : ∀ opc, pc ≠ .opener opc := by
      intro opc' hop
      cases htpc : t.pc with
      | opener opc => exact hne opc htpc
      | _ =>
        rw [htpc] at hstep
        obtain ⟨pc', rfl, -⟩ := hstep
        cases hop
    refine ⟨⟨t₀, opc, ?_, hopc, ?_, ?_⟩, ?_⟩
    · rw [List.getElem?_set_ne h0]
      exact ht₀
    · rintro ⟨t', ht', hr⟩
      refine hrun ?_
      rcases List.mem_or_eq_of_mem_set ht' with ht' | rfl
      · exact ⟨t', ht', hr⟩
      · -- an operation that still runs was running before
        refine ⟨t, List.mem_of_getElem? ht, ?_⟩
        obtain ⟨r, pc', hpc', hnd⟩ := hr
        have hpc'' : pc = .op r pc' := hpc'
        cases htpc : t.pc with
        | op r' opc' =>
          refine ⟨r', opc', htpc, fun result hd => hnone ?_⟩
          rw [htpc, hd]
          exact Pc.move_done
        | opener opc => exact absurd htpc (hne opc)
        | _ =>
          rw [htpc] at hstep
          obtain ⟨pc₁, rfl, -⟩ := hstep
          cases hpc''
    · intro hs
      refine hclose ?_
      cases hmove with
      | call call next hm => exact hs
      | access sh pc' hm =>
        rcases Pc.shutdown_step hm with heq | ⟨hop, -⟩
        · rw [← heq]
          exact hs
        · exact absurd hop (hne _)
    · intro i t' pc' ht' hpc'
      by_cases hi : i = tid
      · subst hi
        rw [List.getElem?_set_self htlt] at ht'
        cases ht'
        exact absurd hpc' (hne' pc')
      · rw [List.getElem?_set_ne (Ne.symm hi)] at ht'
        exact h.others i t' pc' ht' hpc'

/-! ## Good states -/

/-- The times of a record. -/
structure Timed (w : World) (t : Thread) : Prop where
  invoked : t.invokedAt < w.clock
  done : ∀ result, t.pc.result = some result →
    ∃ d, t.doneAt = some d ∧ t.invokedAt < d ∧ d < w.clock

/-- The invariant with the records. -/
structure Good (u : Uuid) (name : String) (w : World) : Prop extends Inv u name w where
  timed : ∀ cid tid t, w.thread? cid tid = some t → Timed w t
  life : ∀ c ∈ w.clients, LifeOk c

/-- Every step takes one unit of time. -/
theorem World.clock_step (h : w.step a = some w') : w'.clock = w.clock + 1 := by
  -- each of the actions adds one
  cases a with
  | «open» options host =>
    cases h
    rfl
  | invoke cid r =>
    simp only [World.step] at h
    split at h
    · cases h
    · split at h
      · cases h
        rfl
      · cases h
  | close cid =>
    simp only [World.step] at h
    split at h
    · cases h
    · split at h
      · cases h
        rfl
      · cases h
  | run cid tid =>
    obtain ⟨c, t, m, -, -, -, -, rfl⟩ := World.step_run h
    cases m <;> rfl

/-- Only an operation that is done has a result. -/
theorem Pc.result_eq_some {pc : Pc} {result : Ret Reply} (h : pc.result = some result) :
    ∃ r, pc = .op r (.done result) := by
  unfold Pc.result at h
  split at h
  · next r result' =>
    cases h
    exact ⟨r, rfl⟩
  · cases h

/-- The times of a thread are in order: invoked before done, and both in the past. -/
theorem Timed.step (hI : Inv u name w) (h : w.step a = some w')
    (hold : ∀ t, w.thread? cid tid = some t → Timed w t)
    (ht : w'.thread? cid tid = some t') : Timed w' t' := by
  have hclock := World.clock_step h
  cases hI.thread_step h ht with
  | same hsame =>
    obtain ⟨hinv, hdone⟩ := hold t' hsame
    refine ⟨by omega, fun result hr => ?_⟩
    obtain ⟨d, hd, hlt, hd'⟩ := hdone result hr
    exact ⟨d, hd, hlt, by omega⟩
  -- a new thread has no result
  | fresh hnone hinv hd hcr hb hpc =>
    refine ⟨by omega, fun result hr => ?_⟩
    obtain ⟨r, hop⟩ := Pc.result_eq_some hr
    have henter := hpc r _ hop
    cases r <;> cases henter
  | closing t hsame hop heq =>
    obtain ⟨hinv, -⟩ := hold t hsame
    subst heq
    exact ⟨by show t.invokedAt < _; omega, fun result hr => by cases hr⟩
  -- the step that ends an operation stamps it with the present time
  | ran c t sh pc ha hc htc heq hk hpc hmv =>
    obtain ⟨hinv, -⟩ := hold t (World.thread?_eq_some.mpr ⟨c, hc, htc⟩)
    subst heq
    refine ⟨by show t.invokedAt < _; omega, fun result hr => ?_⟩
    have hr' : pc.result = some result := hr
    refine ⟨w.clock, ?_, hinv, by omega⟩
    show (if pc.result.isSome then some w.clock else none) = some w.clock
    rw [hr']
    rfl

/-- A step keeps what is known of the world. -/
theorem Good.step (hG : Good u name w) (h : w.step a = some w') : Good u name w' := by
  refine ⟨(hG.toInv.step h).1, fun cid tid t ht => ?_, ?_⟩
  · exact Timed.step hG.toInv h (fun t ht => hG.timed cid tid t ht) ht
  -- for the life of the clients: the action concerns one of them, or adds one
  cases a with
  | «open» options host =>
    cases h
    intro c hc
    rcases List.mem_append.mp hc with hc | hc
    · exact hG.life c hc
    · rw [List.mem_singleton.mp hc]
      exact LifeOk.new ..
  | invoke cid r =>
    simp only [World.step] at h
    split at h
    · cases h
    · next c hc =>
      split at h
      · next hopen =>
        cases h
        intro c' hc'
        rcases List.mem_or_eq_of_mem_set hc' with hc' | rfl
        · exact hG.life c' hc'
        · exact (hG.life c (List.mem_of_getElem? hc)).invoke hopen r w.clock
      · cases h
  | close cid =>
    simp only [World.step] at h
    split at h
    · cases h
    · next c hc =>
      split at h
      · next hopen =>
        cases h
        simp only [Bool.and_eq_true, Bool.not_eq_true'] at hopen
        intro c' hc'
        rcases List.mem_or_eq_of_mem_set hc' with hc' | rfl
        · exact hG.life c' hc'
        · exact (hG.life c (List.mem_of_getElem? hc)).close hopen.1 hopen.2
      · cases h
  | run cid tid =>
    obtain ⟨c, t, hc, -, ht, rfl | ⟨sh, pc, hst, hk, hsh, hpc, hmv⟩⟩ := hG.toInv.run_cases h
    · intro c' hc'
      have hcl := hG.life c (List.mem_of_getElem? hc)
      rcases List.mem_or_eq_of_mem_set hc' with hc' | rfl
      · exact hG.life c' hc'
      · exact ⟨hcl.opener, hcl.others⟩
    · intro c' hc'
      rw [hst.clients] at hc'
      rcases List.mem_or_eq_of_mem_set hc' with hc' | rfl
      · exact hG.life c' hc'
      · exact (hG.life c (List.mem_of_getElem? hc)).run ht hpc hmv

theorem Good.init {options : Options} {host : Host} (h : World.init name u options host = some w) :
    Good u name w := by
  refine ⟨Inv.init h, ?_, ?_⟩
  · intro cid tid t ht
    obtain ⟨blob, b, -, -, rfl⟩ := World.init_eq h
    obtain ⟨c, hc, ht⟩ := World.thread?_eq_some.mp ht
    have hmem := List.mem_of_getElem? ht
    rw [List.mem_singleton.mp (List.mem_of_getElem? hc)] at hmem
    simp only [Client.newThreads, List.mem_cons, List.not_mem_nil, or_false] at hmem
    rcases hmem with rfl | rfl | rfl | rfl <;>
      exact ⟨Nat.zero_lt_one, fun result hr => by cases hr⟩
  · obtain ⟨blob, b, -, -, rfl⟩ := World.init_eq h
    intro c hc
    rw [List.mem_singleton.mp hc]
    exact LifeOk.new ..

theorem Good.of_reaches (hG : Good u name w) (h : Lib.Reaches World.step w w') : Good u name w' :=
  h.invariant (fun _ _ _ hG _ hs => hG.step hs) hG

/-! ## Results -/

/-- An operation that returned. -/
structure OpRecord where
  cid : Nat
  tid : Nat
  request : Request
  result : Ret Reply
  invoked : Nat
  done : Nat

/-- The operation is recorded in the world. -/
def World.Returned (w : World) (x : OpRecord) : Prop :=
  ∃ t, w.thread? x.cid x.tid = some t ∧ t.pc = .op x.request (.done x.result) ∧
    t.invokedAt = x.invoked ∧ t.doneAt = some x.done

/-- A request was invoked at a time. -/
def World.Invoked (w : World) (r : Request) (time : Nat) : Prop :=
  ∃ cid tid t pc, w.thread? cid tid = some t ∧ t.pc = .op r pc ∧ t.invokedAt = time

variable {x y : OpRecord}

theorem Inv.invoked_step (hI : Inv u name w) (h : w.step a = some w') {r : Request} {k : Nat}
    (hi : w.Invoked r k) : w'.Invoked r k := by
  obtain ⟨cid, tid, t, pc, ht, hpc, hk⟩ := hi
  obtain ⟨t', ht', hinv, hop⟩ := hI.thread_persists h ht
  obtain ⟨pc', hpc'⟩ := hop r pc hpc
  exact ⟨cid, tid, t', pc', ht', hpc', hinv.trans hk⟩

theorem Good.invoked_lt (hG : Good u name w) {r : Request} {k : Nat} (h : w.Invoked r k) :
    k < w.clock := by
  obtain ⟨cid, tid, t, pc, ht, -, rfl⟩ := h
  exact (hG.timed cid tid t ht).invoked

theorem Good.returned_lt (hG : Good u name w) (h : w.Returned x) :
    x.invoked < x.done ∧ x.done < w.clock := by
  obtain ⟨t, ht, hpc, hinv, hdone⟩ := h
  obtain ⟨d, hd, hlt, hlt'⟩ := (hG.timed _ _ t ht).done x.result (by rw [hpc]; rfl)
  rw [hdone] at hd
  cases hd
  exact ⟨by omega, hlt'⟩

/-- What a result says stays true. -/
theorem Inv.doneOk (hI : Inv u name w) (h : w.Returned x) :
    DoneOk u w.backend x.request x.result := by
  obtain ⟨t, ht, hpc, -, -⟩ := h
  obtain ⟨c, hc, htc⟩ := World.thread?_eq_some.mp ht
  have hok := (hI.clients c (List.mem_of_getElem? hc)).threads t (List.mem_of_getElem? htc)
  rw [hpc] at hok
  exact hok

theorem World.Returned.unique (hx : w.Returned x) (hy : w.Returned y) (hc : x.cid = y.cid)
    (ht : x.tid = y.tid) : x = y := by
  obtain ⟨t, htx, hpcx, hix, hdx⟩ := hx
  obtain ⟨t', hty, hpcy, hiy, hdy⟩ := hy
  rw [hc, ht, hty] at htx
  cases htx
  rw [hpcy] at hpcx
  cases x
  cases y
  simp only [Pc.op.injEq, OpPc.done.injEq] at hpcx hc ht hix hiy hdx hdy
  rw [hdy] at hdx
  simp only [OpRecord.mk.injEq]
  exact ⟨hc, ht, hpcx.1.symm, hpcx.2.symm, hix.symm.trans hiy, (Option.some.inj hdx).symm⟩

/-- A thread in an operation was running the same operation before its step. -/
theorem PcStep.op {b b' : Store} {sh : Shared} {pc : Pc} {r : Request} {opc' : OpPc}
    (h : PcStep u b c.shared pc b' (.op r opc')) (hmv : Moves name c pc b sh (.op r opc') b') :
    ∃ opc, pc = .op r opc ∧ (∀ result, opc ≠ .done result) ∧ OpStep u b c.shared r b' opc' := by
  cases pc with
  | op r' opc =>
    obtain ⟨pc', hpc', hstep⟩ := h
    cases hpc'
    refine ⟨opc, rfl, fun result hd => hmv.ne_none ?_, hstep⟩
    rw [hd]
    exact Pc.move_done
  | _ =>
    obtain ⟨pc', hpc', -⟩ := h
    cases hpc'

/-- What is known in the step in which an operation returns. -/
structure ReturnStep (u : Uuid) (name : String) (w w' : World) (a : Action) (x : OpRecord) :
    Prop where
  action : a = .run x.cid x.tid
  now : x.done = w.clock
  answer : Answer u w.backend w'.backend x.result x.request
  kept : Kept u name w.backend w'.backend
  running : ∃ c t pc, w.clients[x.cid]? = some c ∧ c.threads[x.tid]? = some t ∧
    t.pc = .op x.request pc ∧ t.invokedAt = x.invoked ∧ (∀ result, pc ≠ .done result) ∧
    ∃ sh, Moves name c t.pc w.backend sh (.op x.request (.done x.result)) w'.backend

/-- **Results**: an operation that returned did so before, or it returns the answer of the state
    it returns in. -/
theorem Good.return_step (hG : Good u name w) (h : w.step a = some w') (hr : w'.Returned x) :
    w.Returned x ∨ ReturnStep u name w w' a x := by
  obtain ⟨t', ht', hpc', hinv, hdone⟩ := hr
  cases hG.toInv.thread_step h ht' with
  | same hsame => exact Or.inl ⟨t', hsame, hpc', hinv, hdone⟩
  | fresh hnone hi hd hcr hb hpc =>
    have henter := hpc _ _ hpc'
    cases hreq : x.request <;> rw [hreq] at henter <;> cases henter
  | closing t hsame hop heq =>
    subst heq
    cases hpc'
  | ran c t sh pc ha hc htc heq hk hpc hmv =>
    subst heq
    have hpc'' : pc = .op x.request (.done x.result) := hpc'
    subst hpc''
    obtain ⟨opc, hop, hnd, hstep⟩ := PcStep.op hpc hmv
    have hshut := (hG.life c (List.mem_of_getElem? hc)).shutdown_false (List.mem_of_getElem? htc)
      ⟨x.request, opc, hop, hnd⟩
    have hans : Answer u w.backend w'.backend x.result x.request := by
      rcases hstep.answer x.result rfl with ⟨-, hs⟩ | hans
      · rw [hshut] at hs
        cases hs
      · exact hans
    have hnow : x.done = w.clock := by
      have : some w.clock = some x.done := hdone
      exact (Option.some.inj this).symm
    exact Or.inr ⟨ha, hnow, hans, hk, c, t, opc, hc, htc, hop, hinv, hnd, sh, hmv⟩

/-- No operation runs in the initial state. -/
theorem not_op_init {options : Options} {host : Host} {r : Request} {pc : OpPc}
    (h : World.init name u options host = some w) (ht : w.thread? cid tid = some t) :
    t.pc ≠ .op r pc := by
  intro hpc
  obtain ⟨blob, b, -, -, rfl⟩ := World.init_eq h
  obtain ⟨c, hc, ht⟩ := World.thread?_eq_some.mp ht
  have hmem := List.mem_of_getElem? ht
  rw [List.mem_singleton.mp (List.mem_of_getElem? hc)] at hmem
  simp only [Client.newThreads, List.mem_cons, List.not_mem_nil, or_false] at hmem
  rcases hmem with rfl | rfl | rfl | rfl <;> cases hpc

theorem not_returned_init {options : Options} {host : Host}
    (h : World.init name u options host = some w) : ¬ w.Returned x := by
  rintro ⟨t, ht, hpc, -⟩
  exact not_op_init h ht hpc

/-- **Pairs of records**: a relation holds between all records when it holds between a record
    and one that is added, in both orders. -/
theorem pairs_of_reaches {P : World → OpRecord → OpRecord → Prop} {options : Options} {host : Host}
    (hmono : ∀ w w' a x y, Good u name w → w.step a = some w' → P w x y → P w' x y)
    (hnew : ∀ w w' a x y, Good u name w → w.step a = some w' → w.Returned x →
      ReturnStep u name w w' a y → P w' x y ∧ P w' y x)
    (hself : ∀ w x, P w x x) {w₀ : World} (h₀ : World.init name u options host = some w₀)
    (h : Lib.Reaches World.step w₀ w) (hx : w.Returned x) (hy : w.Returned y) : P w x y := by
  have hinv : Good u name w ∧ ∀ x y, w.Returned x → w.Returned y → P w x y := by
    refine h.invariant (I := fun w => Good u name w ∧ ∀ x y, w.Returned x → w.Returned y → P w x y)
      ?_ ⟨Good.init h₀, fun x y hx => absurd hx (not_returned_init h₀)⟩
    rintro t a v ⟨hG, hP⟩ - hs
    refine ⟨hG.step hs, fun x y hx hy => ?_⟩
    rcases hG.return_step hs hx with hx₀ | hx₁
    · rcases hG.return_step hs hy with hy₀ | hy₁
      · exact hmono t v a x y hG hs (hP x y hx₀ hy₀)
      · exact (hnew t v a x y hG hs hx₀ hy₁).1
    · rcases hG.return_step hs hy with hy₀ | hy₁
      · exact (hnew t v a y x hG hs hy₀ hx₁).2
      · have hact := hx₁.action.symm.trans hy₁.action
        simp only [Action.run.injEq] at hact
        rw [hx.unique hy hact.1 hact.2]
        exact hself v y
  exact hinv.2 x y hx hy

/-! ## The stored log in a step -/

/-- The stored log changes only by an allowed call of a thread. -/
theorem Inv.backend_step (hI : Inv u name w) (h : w.step a = some w') :
    w'.backend = w.backend ∨
    ∃ cid tid c t, ∃ (α : Type) (call : Call Fbs.View α) (next : α → Pc),
      a = .run cid tid ∧ w.clients[cid]? = some c ∧ c.threads[tid]? = some t ∧
      t.pc.move name c = some (.backend call next) ∧ CallOk u name w.backend call ∧
      PcOk u w.backend t.pc ∧ w'.backend = (w.backend.exec call).2 := by
  cases a with
  | «open» options host =>
    cases h
    exact Or.inl rfl
  | invoke cid r =>
    simp only [World.step] at h
    split at h
    · cases h
    · split at h
      · cases h
        exact Or.inl rfl
      · cases h
  | close cid =>
    simp only [World.step] at h
    split at h
    · cases h
    · split at h
      · cases h
        exact Or.inl rfl
      · cases h
  | run cid tid =>
    obtain ⟨c, t, m, hc, -, ht, hm, rfl⟩ := World.step_run h
    cases m with
    | abort => exact Or.inl rfl
    | memory sh pc => exact Or.inl rfl
    | backend call next =>
      rw [hI.named] at hm
      have hcok := hI.clients c (List.mem_of_getElem? hc)
      have hpc := hcok.threads t (List.mem_of_getElem? ht)
      exact Or.inr ⟨cid, tid, c, t, _, call, next, rfl, hc, ht, hm,
        Pc.move_callOk hI.log hcok.shared hpc hm, hpc, rfl⟩

/-- Trims are made by the operations that ask for them. -/
theorem Pc.move_trims {b : Store} {pc : Pc} {α : Type} {call : Call Fbs.View α} {next : α → Pc}
    {q : Nat} (hpc : PcOk u b pc) (hm : pc.move name c = some (.backend call next))
    (htr : call.Trims q) : ∃ r opc, pc = .op r opc ∧ r.Trims q := by
  rcases Pc.move_makes hpc α call next hm with hman | ⟨r, opc, hop, hmk⟩
  · cases call <;> first | exact htr.elim | exact hman.elim
  · refine ⟨r, opc, hop, ?_⟩
    cases call with
    | trim oid e p l f =>
      cases l with
      | false =>
        rw [show r = .trim p from hmk]
        exact htr
      | true =>
        rw [show r = .trimTo p from hmk]
        exact htr
    | _ => exact htr.elim

/-- Data stays until a trim that covers it has been invoked. -/
theorem Inv.data_step (hI : Inv u name w) (h : w.step a = some w') {q : Nat} {d : String}
    (hd : positionSlot u w.backend q = .written d) :
    positionSlot u w'.backend q = .written d ∨ ∃ r k, w.Invoked r k ∧ r.Trims q := by
  rcases hI.backend_step h with heq |
    ⟨cid, tid, c, t, α, call, next, -, hc, ht, hm, hcall, hpc, heq⟩
  · rw [heq]
    exact Or.inl hd
  · rw [heq]
    by_cases htr : call.Trims q
    · right
      obtain ⟨r, opc, hop, hr⟩ := Pc.move_trims hpc hm htr
      exact ⟨r, t.invokedAt, ⟨cid, tid, t, opc, World.thread?_eq_some.mpr ⟨c, hc, ht⟩, hop, rfl⟩, hr⟩
    · exact Or.inl (hcall.written_stays hI.log htr hd)

end

/-! ## A small log

The log on which results are tried out: stripes of one object with one slot, so that every
position has an object of its own. -/

namespace Sample

def uuid : Uuid :=
  ⟨"00000000-0000-0000-0000-000000000000", Uuid.zero.length_eq, Uuid.zero.chars⟩

def host : Host := ⟨"h", by decide⟩

def options : Options := { stripeWidth := 1, stripeSlots := 1 }

/-- Some steps of one thread. -/
def steps (client thread n : Nat) : List Action := List.replicate n (.run client thread)

/-- The world after some actions. -/
def world (actions : List Action) : Option World :=
  (World.init "log" uuid options host).bind fun w => Lib.exec World.step w actions

/-- The first client opens the log; its second thread refreshes the view. -/
def opened : List Action := steps 0 0 10 ++ steps 0 1 5 ++ steps 0 0 3

/-- The first client appends. -/
def appended : List Action := opened ++ .invoke 0 (.append "a") :: steps 0 4 4

theorem reaches {actions : List Action} {w : World} (h : world actions = some w) :
    ∃ w₀, World.init "log" uuid options host = some w₀ ∧ Lib.Reaches World.step w₀ w := by
  obtain ⟨w₀, h₀, h⟩ := Option.bind_eq_some_iff.mp h
  exact ⟨w₀, h₀, Lib.run_of_exec actions h⟩

/-- The world after some actions that meet a condition. -/
def worldIf (ok : World → Action → Prop) [∀ w a, Decidable (ok w a)] (actions : List Action) :
    Option World :=
  (World.init "log" uuid options host).bind fun w =>
    Lib.exec (fun w a => if ok w a then w.step a else none) w actions

theorem runs {ok : World → Action → Prop} [∀ w a, Decidable (ok w a)] {actions : List Action}
    {w : World} (h : worldIf ok actions = some w) :
    ∃ w₀, World.init "log" uuid options host = some w₀ ∧ Lib.Run World.step ok w₀ w := by
  obtain ⟨w₀, h₀, h⟩ := Option.bind_eq_some_iff.mp h
  exact ⟨w₀, h₀, Lib.run_of_exec_guard actions h⟩

end Sample

end ZLog
