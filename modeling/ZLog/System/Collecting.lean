import ZLog.Lib.Tickets
import ZLog.System.Owners

/-!
# What the threads of a world show

A function of control states, such as the position that an append has returned, is collected over
all threads of all clients.  A step changes what is collected only by what the thread that moves
showed before and shows afterwards.

## Main results

- `Inv.collect_step`: a new client, or a step of one client.
- `World.collect_split`: the thread that moves, between those before it and those behind it.
-/

namespace ZLog

/-- What `f` finds in the threads of a client. -/
def Client.collect {α : Type} (f : Pc → Option α) (c : Client) : List α :=
  c.threads.filterMap fun t => f t.pc

/-- What `f` finds in the threads of all clients. -/
def World.collect {α : Type} (f : Pc → Option α) (w : World) : List α :=
  w.clients.flatMap (Client.collect f)

section

variable {u : Uuid} {name : String} {w w' : World} {a : Action} {c c' : Client} {cid tid : Nat}
  {t t' : Thread} {α : Type} {f : Pc → Option α}

/-- `f` looks at the operations, and finds the same in an opening thread all along. -/
structure OfThreads (f : Pc → Option α) : Prop where
  opener : ∀ pc pc', f (.opener pc) = f (.opener pc')
  other : ∀ pc, (∀ opc, pc ≠ .opener opc) → (∀ r opc, pc ≠ .op r opc) → f pc = none

/-- It finds nothing in an operation that starts. -/
structure OfOps (f : Pc → Option α) : Prop extends OfThreads f where
  enter : ∀ r, f (.op r r.enter) = none

/-- A new client shows its opening thread. -/
theorem Client.collect_new (hf : OfThreads f) (options : Options) (host : Host) (clock : Nat) :
    (Client.new options host clock).collect f = (f (.opener .openLog)).toList := by
  have hnone : ∀ pc : Pc, (∀ opc, pc ≠ .opener opc) → (∀ r opc, pc ≠ .op r opc) → f pc = none :=
    hf.other
  cases hopener : f (.opener .openLog) <;>
    simp [Client.collect, Client.new, Client.newThreads, hnone, hopener]

/-- A client that shows the same. -/
theorem World.collect_same (hc : w.clients[cid]? = some c)
    (hset : w'.clients = w.clients.set cid c') (hsame : c'.collect f = c.collect f) :
    w'.collect f = w.collect f := by
  obtain ⟨before, after, hclients, hcset, -⟩ := Lib.set_split hc
  rw [World.collect, World.collect, hset, hcset, hclients]
  simp [hsame]

/-- The last client shows something new. -/
theorem World.collect_last {shown : List α} (hc : w.clients[cid]? = some c)
    (hset : w'.clients = w.clients.set cid c') (hlast : cid + 1 = w.clients.length)
    (hnew : c'.collect f = c.collect f ++ shown) : w'.collect f = w.collect f ++ shown := by
  obtain ⟨before, after, hclients, hcset, hafter⟩ := Lib.set_split hc
  rw [World.collect, World.collect, hset, hcset, hclients, hafter hlast]
  simp [hnew]

/-- The thread that moves, between what is shown before it and behind it. -/
theorem World.collect_split (f : Pc → Option α) (hc : w.clients[cid]? = some c)
    (ht : c.threads[tid]? = some t) (hset : w'.clients = w.clients.set cid c')
    (hthreads : c'.threads = c.threads.set tid t') :
    ∃ before after, w.collect f = before ++ (f t.pc).toList ++ after ∧
      w'.collect f = before ++ (f t'.pc).toList ++ after ∧
      (cid + 1 = w.clients.length → tid + 1 = c.threads.length → after = []) := by
  obtain ⟨cs, cs', hclients, hcset, hclast⟩ := Lib.set_split hc
  obtain ⟨ts, ts', hts, htset, htlast⟩ := Lib.set_split ht
  refine ⟨cs.flatMap (Client.collect f) ++ ts.filterMap fun t => f t.pc,
    (ts'.filterMap fun t => f t.pc) ++ cs'.flatMap (Client.collect f), ?_, ?_, ?_⟩
  · rw [World.collect, hclients, List.flatMap_append, List.flatMap_cons, Client.collect, hts,
      List.filterMap_append, List.filterMap_cons]
    cases f t.pc <;> simp
  · rw [World.collect, hset, hcset, List.flatMap_append, List.flatMap_cons, Client.collect,
      hthreads, htset, List.filterMap_append, List.filterMap_cons]
    cases f t'.pc <;> simp
  · intro hlastc hlastt
    rw [hclast hlastc, htlast hlastt]
    rfl

/-- The client stands still: at most an operation starts, or the log begins to close. -/
structure Client.Rests (c c' : Client) : Prop where
  backend : c'.shared.backend = c.shared.backend
  seqs : c'.shared.seqs = c.shared.seqs
  threads : ∀ t' ∈ c'.threads, (∃ t ∈ c.threads, t'.pc = t.pc) ∨ (∃ r, t'.pc = .op r r.enter) ∨
    t'.pc = .opener .shutdownManager

theorem Client.Rests.refl (c : Client) : c.Rests c := ⟨rfl, rfl, fun t ht => Or.inl ⟨t, ht, rfl⟩⟩

/-- What a client shows that stands still: the same as before, or also an operation that starts. -/
inductive Client.Shows (a : Action) (cid : Nat) (c c' : Client) : Prop where
  | same : (∀ (α : Type) (f : Pc → Option α), OfThreads f → c'.collect f = c.collect f) →
      Client.Shows a cid c c'
  | invoked (r : Request) : a = .invoke cid r → c.isOpen = true →
      (∀ (α : Type) (f : Pc → Option α), c'.collect f = c.collect f ++ (f (.op r r.enter)).toList) →
      Client.Shows a cid c c'

/-- An operation that starts shows no position yet. -/
theorem Client.Shows.ofOps (h : Client.Shows a cid c c') (hf : OfOps f) :
    c'.collect f = c.collect f := by
  cases h with
  | same hsame => exact hsame α f hf.toOfThreads
  | invoked r ha hopen hnew => rw [hnew α f, hf.enter r, Option.toList_none, List.append_nil]

/-- What a step of a client changes of what it shows: nothing but an operation that starts, or what
    the thread shows that moved. -/
inductive CollectStep (u : Uuid) (name : String) (w w' : World) (a : Action) (cid : Nat)
    (c c' : Client) : Prop where
  | quiet : w'.backend = w.backend → c.Rests c' → Client.Shows a cid c c' →
      CollectStep u name w w' a cid c c'
  | ran (tid : Nat) (t t' : Thread) (sh : Shared) : c.threads[tid]? = some t → a = .run cid tid →
      c' = { c with shared := sh, threads := c.threads.set tid t' } →
      w'.thread? cid tid = some t' →
      PcStep u w.backend c.shared t.pc w'.backend t'.pc →
      Moves name c t.pc w.backend sh t'.pc w'.backend →
      CollectStep u name w w' a cid c c'

/-- A new client opens the log, or one client takes a step. -/
theorem Inv.collect_step (hI : Inv u name w) (h : w.step a = some w') :
    (∃ options host, a = .open options host ∧
      w'.clients = w.clients ++ [Client.new options host w.clock] ∧ w'.backend = w.backend) ∨
    ∃ cid c c', w.clients[cid]? = some c ∧ w'.clients = w.clients.set cid c' ∧
      CollectStep u name w w' a cid c c' := by
  cases a with
  | «open» options host =>
    cases h
    exact Or.inl ⟨options, host, rfl, rfl, rfl⟩
  | invoke cid r =>
    right
    simp only [World.step] at h
    split at h
    · cases h
    · next c hc =>
      split at h
      · next hopen =>
        cases h
        refine ⟨cid, c, _, hc, rfl, .quiet rfl ⟨rfl, rfl, ?_⟩ (.invoked r rfl hopen ?_)⟩
        · intro t' ht'
          rcases List.mem_append.mp ht' with ht' | ht'
          · exact Or.inl ⟨t', ht', rfl⟩
          · rw [List.mem_singleton.mp ht']
            exact Or.inr (Or.inl ⟨r, rfl⟩)
        · intro α f
          cases hf : f (.op r r.enter) <;> simp [Client.collect, hf]
      · cases h
  | close cid =>
    right
    simp only [World.step] at h
    split at h
    · cases h
    · next c hc =>
      split at h
      · cases h
        refine ⟨cid, c, _, hc, rfl, .quiet rfl ⟨rfl, rfl, ?_⟩ (.same ?_)⟩
        · intro t' ht'
          obtain ⟨t, ht, rfl⟩ := List.mem_map.mp ht'
          split
          · exact Or.inr (Or.inr rfl)
          · exact Or.inl ⟨t, ht, rfl⟩
        · intro α f hf
          have hsame : ∀ t : Thread, f (if t.pc = .opener .opened then
              { t with pc := Pc.opener .shutdownManager } else t).pc = f t.pc := by
            intro t
            split
            · next heq =>
              rw [heq]
              exact hf.opener _ _
            · rfl
          simp only [Client.collect, List.filterMap_map, Function.comp_def, hsame]
      · cases h
  | run cid tid =>
    right
    obtain ⟨c, t, hc, -, ht, rfl | ⟨sh, pc, hst, -, -, hpc, hmv⟩⟩ := hI.run_cases h
    · refine ⟨cid, c, _, hc, rfl, .quiet rfl ⟨rfl, rfl, ?_⟩ (.same ?_)⟩
      · exact fun t ht => Or.inl ⟨t, ht, rfl⟩
      · exact fun _ _ _ => rfl
    · have hthread := (World.thread?_set_self hst.clients (lt_of_getElem?_eq_some hc)).trans
        (List.getElem?_set_self (lt_of_getElem?_eq_some ht))
      exact ⟨cid, c, _, hc, hst.clients, .ran tid t _ sh ht rfl rfl hthread hpc hmv⟩

end

end ZLog
