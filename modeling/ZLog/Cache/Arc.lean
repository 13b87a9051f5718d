import ZLog.Cache.Basic
import ZLog.Lib.Transition
import Mathlib.Algebra.Order.Field.Rat

/-!
# The ARC policy

The policy keeps the positions of the cache in two lists, `t1` for those used once and `t2` for those
used again, and remembers evicted positions in the ghost lists `b1` and `b2`.  `arc_p` is the size
that `t1` should have; none of the results depends on its value or on the arithmetic it is computed
with.

Sizes are natural numbers: lists of `2 ^ 63` nodes do not fit into memory, so neither their sums nor
`2 * arc_c` wrap where they matter.

## Main results

- `ARC.Lists.replace`: what `replace` moves, and when it has something to move.
- `ARC.Invariant.put`, `ARC.Invariant.get`: every call keeps the invariant.
- `arc_invariant`: the invariant after any sequence of puts and gets.
-/

namespace ZLog

structure ARC (R : Type) where
  t1 : Lib.IndexedList Nat
  t2 : Lib.IndexedList Nat
  b1 : Lib.IndexedList Nat
  b2 : Lib.IndexedList Nat
  arcC : Nat
  arcP : R
  /-- The address of the next list node. -/
  nextNode : Nat

namespace ARC

variable {R : Type}

/-! ## The policy -/

/-- `arc_p` is not initialised. -/
def new (cacheSize : Nat) (arcP : R) : ARC R := ⟨.empty, .empty, .empty, .empty, cacheSize, arcP, 0⟩

def cacheGetHit (s : ARC R) (pos : Nat) : Option (ARC R) :=
  match s.t1.hashMap.lookup pos with
  | some it =>
    match s.t1.moveTo s.t2 pos it with
    | none => none
    | some (t1, t2) => some { s with t1 := t1, t2 := t2 }
  | none =>
    match s.t2.hashMap.lookup pos with
    | some it =>
      match Lib.cut s.t2.list it with
      | none => none
      | some (node, rest) => some { s with t2 := { s.t2 with list := node :: rest } }
    | none => some s

section

variable [LinearOrder R] [NatCast R] [Zero R] [One R] [Add R] [Sub R] [Div R]

/-- Division by zero has no result. -/
def getDelta1 (s : ARC R) : Option R :=
  if s.b2.size ≤ s.b1.size then some 1
  else if s.b1.size = 0 then none
  else some (s.b2.size / s.b1.size)

def getDelta2 (s : ARC R) : Option R :=
  if s.b1.size ≤ s.b2.size then some 1
  else if s.b2.size = 0 then none
  else some (s.b1.size / s.b2.size)

def replace (s : ARC R) (cacheMap : CacheMap) (pos : Nat) : Option (ARC R × CacheMap) :=
  if 0 < s.t1.size ∧ (s.arcP < s.t1.size ∨ (pos ∈ s.b2.hashMap ∧ (s.t1.size : R) ≤ s.arcP)) then
    match s.t1.popBack with
    | none => none
    | some (r, t1) =>
      some ({ s with t1 := t1, b1 := s.b1.pushFront s.nextNode r, nextNode := s.nextNode + 1 },
        cacheMap.erase r)
  else
    match s.t2.popBack with
    | none => none
    | some (r, t2) =>
      some ({ s with t2 := t2, b2 := s.b2.pushFront s.nextNode r, nextNode := s.nextNode + 1 },
        cacheMap.erase r)

/-- The part of `cache_put_miss` that makes room for a position that is in no list. -/
def makeRoom (s : ARC R) (cacheMap : CacheMap) (pos : Nat) : Option (ARC R × CacheMap) :=
  let total := s.t1.size + s.b1.size + s.t2.size + s.b2.size
  if s.arcC ≤ s.t1.size + s.b1.size then
    -- a miss on a full directory: a ghost of the first list is forgotten, or an entry of it
    if s.t1.size < s.arcC then
      match s.b1.popBack with
      | none => none
      | some (_, b1) => { s with b1 := b1 }.replace cacheMap pos
    else
      match s.t1.popBack with
      | none => none
      -- the evicted position also leaves the cache itself
      | some (r, t1) => some ({ s with t1 := t1 }, cacheMap.erase r)
  else if s.arcC ≤ total then
    if 2 * s.arcC ≤ total then
      match s.b2.popBack with
      | none => none
      | some (_, b2) => { s with b2 := b2 }.replace cacheMap pos
    else s.replace cacheMap pos
  else some (s, cacheMap)

/-- A miss: a ghost hit in the first or the second list moves the target, and else there is a new
    entry. -/
def cachePutMiss (s : ARC R) (cacheMap : CacheMap) (pos : Nat) : Option (ARC R × CacheMap) :=
  match s.b1.hashMap.lookup pos with
  | some it =>
    match s.getDelta1 with
    | none => none
    | some delta =>
      -- a hit in the first ghost list favours recent entries
      match { s with arcP := min (s.arcP + delta) s.arcC }.replace cacheMap pos with
      | none => none
      | some (s, cacheMap) =>
        match s.b1.moveTo s.t2 pos it with
        | none => none
        | some (b1, t2) => some ({ s with b1 := b1, t2 := t2 }, cacheMap)
  | none =>
    match s.b2.hashMap.lookup pos with
    | some it =>
      match s.getDelta2 with
      | none => none
      | some delta =>
        -- a hit in the second one favours frequent entries
        match { s with arcP := max (s.arcP - delta) 0 }.replace cacheMap pos with
        | none => none
        | some (s, cacheMap) =>
          match s.b2.moveTo s.t2 pos it with
          | none => none
          | some (b2, t2) => some ({ s with b2 := b2, t2 := t2 }, cacheMap)
    -- no ghost: make room, and insert as the most recent entry
    | none =>
      match s.makeRoom cacheMap pos with
      | none => none
      | some (s, cacheMap) =>
        some ({ s with t1 := s.t1.pushFront s.nextNode pos, nextNode := s.nextNode + 1 }, cacheMap)

def policy : Eviction (ARC R) := ⟨cacheGetHit, cachePutMiss⟩

end

/-! ## The lists -/

def residents (s : ARC R) : List (Lib.ListNode Nat) := s.t1.list ++ s.t2.list

def ghosts (s : ARC R) : List (Lib.ListNode Nat) := s.b1.list ++ s.b2.list

/-- The four lists have no position in common or twice, each follows its hash map, and the cache
    holds the positions of the first two. -/
structure Lists (s : ARC R) (cacheMap : CacheMap) : Prop where
  distinct : Lib.Distinct (s.residents ++ s.ghosts) s.nextNode
  t1 : s.t1.Indexed
  t2 : s.t2.Indexed
  b1 : s.b1.Indexed
  b2 : s.b2.Indexed
  cached : ∀ pos, pos ∈ cacheMap ↔ pos ∈ s.residents.map Lib.ListNode.key

/-- The bounds on the sizes of the four lists. -/
def Sizes (c t1 t2 b1 b2 : Nat) : Prop :=
  t1 + t2 ≤ c ∧ t1 + b1 ≤ c ∧ t1 + t2 + b1 + b2 ≤ 2 * c ∧ (b1 ≠ 0 ∨ b2 ≠ 0 → t1 + t2 = c)

namespace Lists

variable {s : ARC R} {m : CacheMap} {pos : Nat}

theorem distinct_t1 (h : s.Lists m) : Lib.Distinct s.t1.list s.nextNode :=
  h.distinct.append_left.append_left

theorem distinct_t2 (h : s.Lists m) : Lib.Distinct s.t2.list s.nextNode :=
  h.distinct.append_left.append_right

theorem distinct_b1 (h : s.Lists m) : Lib.Distinct s.b1.list s.nextNode :=
  h.distinct.append_right.append_left

theorem distinct_b2 (h : s.Lists m) : Lib.Distinct s.b2.list s.nextNode :=
  h.distinct.append_right.append_right

/-- `size()` of the hash maps. -/
theorem sizes (h : s.Lists m) : s.t1.size = s.t1.list.length ∧ s.t2.size = s.t2.list.length ∧
    s.b1.size = s.b1.list.length ∧ s.b2.size = s.b2.list.length :=
  ⟨h.t1.size_eq h.distinct_t1.keys, h.t2.size_eq h.distinct_t2.keys,
    h.b1.size_eq h.distinct_b1.keys, h.b2.size_eq h.distinct_b2.keys⟩

/-- A resident is no ghost. -/
theorem not_ghost (h : s.Lists m) (hpos : pos ∈ s.residents.map Lib.ListNode.key) :
    pos ∉ s.ghosts.map Lib.ListNode.key := by
  have hnodup := h.distinct.keys
  rw [List.map_append] at hnodup
  exact fun hg => (List.nodup_append.mp hnodup).2.2 pos hpos pos hg rfl

/-- A resident that is evicted and remembered: its node is freed, and a new one is a ghost. -/
theorem evict (h : s.Lists m) (s' : ARC R) {n : Lib.ListNode Nat}
    (hresidents : s.residents.Perm (n :: s'.residents))
    (hghosts : s'.ghosts.Perm (⟨s.nextNode, n.key⟩ :: s.ghosts))
    (hnext : s'.nextNode = s.nextNode + 1) (ht1 : s'.t1.Indexed) (ht2 : s'.t2.Indexed)
    (hb1 : s'.b1.Indexed) (hb2 : s'.b2.Indexed) : s'.Lists (m.erase n.key) := by
  have hall : (s.residents ++ s.ghosts).Perm (n :: (s'.residents ++ s.ghosts)) :=
    hresidents.append_right _
  -- the evicted position is in none of the other lists
  have hrest : n.key ∉ (s'.residents ++ s.ghosts).map Lib.ListNode.key :=
    fun hmem => ((h.distinct.mem_rest hall).mp hmem).2 rfl
  have hdistinct := ((h.distinct.perm hall).sublist (List.sublist_cons_self ..)).cons hrest
  refine ⟨?_, ht1, ht2, hb1, hb2, ?_⟩
  · rw [hnext]
    apply hdistinct.perm
    exact List.perm_middle.symm.trans (hghosts.symm.append_left _)
  · -- a position stays in the cache if it is another one
    intro p
    rw [AList.mem_erase, h.cached, h.distinct.append_left.mem_rest hresidents]
    exact and_comm

/-- The new ghost was a resident. -/
theorem evict_ghosts {s s' : ARC R} {n : Lib.ListNode Nat}
    (hn : n.key ∈ s.residents.map Lib.ListNode.key)
    (hghosts : s'.ghosts.Perm (⟨s.nextNode, n.key⟩ :: s.ghosts)) (p : Nat)
    (hp : p ∈ s'.ghosts.map Lib.ListNode.key) :
    p ∈ s.ghosts.map Lib.ListNode.key ∨ p ∈ s.residents.map Lib.ListNode.key := by
  rw [(hghosts.map Lib.ListNode.key).mem_iff, List.map_cons, List.mem_cons] at hp
  rcases hp with heq | hp
  · rw [heq]
    exact Or.inr hn
  · exact Or.inl hp

/-- What `replace` does: the last position of `t1` or of `t2` becomes a ghost. -/
structure Replaced (s s' : ARC R) (m m' : CacheMap) : Prop where
  lists : s'.Lists m'
  arcC : s'.arcC = s.arcC
  b1 : s.b1.list.Sublist s'.b1.list
  b2 : s.b2.list.Sublist s'.b2.list
  cached : ∀ p ∈ m', p ∈ m
  ghosts : ∀ p, p ∈ s'.ghosts.map Lib.ListNode.key →
    p ∈ s.ghosts.map Lib.ListNode.key ∨ p ∈ s.residents.map Lib.ListNode.key
  lengths :
    (s.t1.list.length = s'.t1.list.length + 1 ∧ s'.t2.list.length = s.t2.list.length ∧
      s'.b1.list.length = s.b1.list.length + 1 ∧ s'.b2.list.length = s.b2.list.length) ∨
    (s'.t1.list.length = s.t1.list.length ∧ s.t2.list.length = s'.t2.list.length + 1 ∧
      s'.b1.list.length = s.b1.list.length ∧ s'.b2.list.length = s.b2.list.length + 1)

/-- Nodes change lists. -/
theorem rearrange (h : s.Lists m) {s' : ARC R} {m' : CacheMap}
    (hperm : (s.residents ++ s.ghosts).Perm (s'.residents ++ s'.ghosts))
    (hnext : s'.nextNode = s.nextNode) (ht1 : s'.t1.Indexed) (ht2 : s'.t2.Indexed)
    (hb1 : s'.b1.Indexed) (hb2 : s'.b2.Indexed)
    (hcached : ∀ p, p ∈ m' ↔ p ∈ s'.residents.map Lib.ListNode.key) : s'.Lists m' :=
  ⟨hnext ▸ h.distinct.perm hperm, ht1, ht2, hb1, hb2, hcached⟩

/-- A ghost is forgotten. -/
theorem forget (h : s.Lists m) {s' : ARC R} (hresidents : s'.residents = s.residents)
    (hghosts : s'.ghosts.Sublist s.ghosts) (hnext : s'.nextNode = s.nextNode)
    (ht1 : s'.t1.Indexed) (ht2 : s'.t2.Indexed) (hb1 : s'.b1.Indexed) (hb2 : s'.b2.Indexed) :
    s'.Lists m := by
  refine ⟨?_, ht1, ht2, hb1, hb2, ?_⟩
  · rw [hnext, hresidents]
    exact h.distinct.sublist (hghosts.append_left _)
  · intro p
    rw [hresidents]
    exact h.cached p

theorem setP (h : s.Lists m) (p : R) : Lists { s with arcP := p } m :=
  ⟨h.distinct, h.t1, h.t2, h.b1, h.b2, h.cached⟩

theorem not_t2 (h : s.Lists m) (hpos : pos ∉ m) : pos ∉ s.t2.keys := by
  intro hmem
  apply hpos
  rw [h.cached]
  unfold residents
  rw [List.map_append]
  exact List.mem_append_right _ hmem

/-- The last ghost of `b1`. -/
theorem forget_b1 (h : s.Lists m) (hne : s.b1.list ≠ []) :
    ∃ r b1, s.b1.popBack = some (r, b1) ∧ s.b1.list.length = b1.list.length + 1 ∧
      Lists { s with b1 := b1 } m ∧ (b1.list ++ s.b2.list).Sublist s.ghosts := by
  obtain ⟨n, b1, hpop, hlist, hindexed⟩ := h.b1.popBack h.distinct_b1.keys hne
  have hsub : (b1.list ++ s.b2.list).Sublist s.ghosts := by
    unfold ghosts
    rw [hlist]
    exact (List.sublist_append_left ..).append_right _
  refine ⟨n.key, b1, hpop, ?_, h.forget rfl hsub rfl h.t1 h.t2 hindexed h.b2, hsub⟩
  rw [hlist]
  exact List.length_append

/-- The last ghost of `b2`. -/
theorem forget_b2 (h : s.Lists m) (hne : s.b2.list ≠ []) :
    ∃ r b2, s.b2.popBack = some (r, b2) ∧ s.b2.list.length = b2.list.length + 1 ∧
      Lists { s with b2 := b2 } m ∧ (s.b1.list ++ b2.list).Sublist s.ghosts := by
  obtain ⟨n, b2, hpop, hlist, hindexed⟩ := h.b2.popBack h.distinct_b2.keys hne
  have hsub : (s.b1.list ++ b2.list).Sublist s.ghosts := by
    unfold ghosts
    rw [hlist]
    exact (List.sublist_append_left ..).append_left _
  refine ⟨n.key, b2, hpop, ?_, h.forget rfl hsub rfl h.t1 h.t2 h.b1 hindexed, hsub⟩
  rw [hlist]
  exact List.length_append

/-- The last resident of `t1`, which leaves no ghost. -/
theorem drop_t1 (h : s.Lists m) (hne : s.t1.list ≠ []) :
    ∃ r t1, s.t1.popBack = some (r, t1) ∧ s.t1.list.length = t1.list.length + 1 ∧
      Lists { s with t1 := t1 } (m.erase r) := by
  obtain ⟨n, t1, hpop, hlist, hindexed⟩ := h.t1.popBack h.distinct_t1.keys hne
  have hperm : s.residents.Perm (n :: (t1.list ++ s.t2.list)) := by
    unfold residents
    rw [hlist, List.append_assoc]
    exact List.perm_middle
  refine ⟨n.key, t1, hpop, ?_, ?_, hindexed, h.t2, h.b1, h.b2, ?_⟩
  · rw [hlist]
    exact List.length_append
  · exact (h.distinct.perm (hperm.append_right _)).sublist (List.sublist_cons_self ..)
  · intro p
    rw [AList.mem_erase, h.cached, and_comm]
    exact (h.distinct.append_left.mem_rest hperm).symm

/-- A ghost comes back with new data. -/
theorem revive (h : s.Lists m) (s' : ARC R) {n : Lib.ListNode Nat}
    (hresidents : s'.residents.Perm (n :: s.residents)) (hghosts : s.ghosts.Perm (n :: s'.ghosts))
    (hnext : s'.nextNode = s.nextNode) (ht1 : s'.t1.Indexed) (ht2 : s'.t2.Indexed)
    (hb1 : s'.b1.Indexed) (hb2 : s'.b2.Indexed) (data : String) :
    s'.Lists (m.insert n.key data) := by
  apply h.rearrange _ hnext ht1 ht2 hb1 hb2
  · intro p
    rw [AList.mem_insert, (hresidents.map Lib.ListNode.key).mem_iff, List.map_cons, List.mem_cons]
    exact or_congr Iff.rfl (h.cached p)
  · have hmiddle : (s.residents ++ n :: s'.ghosts).Perm (n :: s.residents ++ s'.ghosts) :=
      List.perm_middle
    exact (hghosts.append_left _).trans (hmiddle.trans (hresidents.symm.append_right _))

/-- A position that is in no list. -/
theorem push (h : s.Lists m) (hpos : pos ∉ m) (hghost : pos ∉ s.ghosts.map Lib.ListNode.key)
    (data : String) :
    Lists { s with t1 := s.t1.pushFront s.nextNode pos, nextNode := s.nextNode + 1 }
      (m.insert pos data) := by
  have hres : pos ∉ s.residents.map Lib.ListNode.key := fun hmem => hpos ((h.cached pos).mpr hmem)
  -- the position is in neither list
  have hnot : pos ∉ (s.residents ++ s.ghosts).map Lib.ListNode.key := by
    rw [List.map_append, List.mem_append]
    rintro (hmem | hmem)
    · exact hres hmem
    · exact hghost hmem
  have ht1 : pos ∉ s.t1.keys := by
    intro hmem
    apply hres
    unfold residents
    rw [List.map_append]
    exact List.mem_append_left _ hmem
  refine ⟨h.distinct.cons hnot, h.t1.pushFront ht1 _, h.t2, h.b1, h.b2, ?_⟩
  intro p
  rw [AList.mem_insert]
  exact (or_congr Iff.rfl (h.cached p)).trans List.mem_cons.symm

/-- The positions of a list are told by its hash map. -/
theorem ghost_iff (h : s.Lists m) :
    pos ∈ s.ghosts.map Lib.ListNode.key ↔ pos ∈ s.b1.hashMap ∨ pos ∈ s.b2.hashMap := by
  unfold ghosts
  rw [List.map_append, List.mem_append]
  exact or_congr h.b1.mem_iff.symm h.b2.mem_iff.symm

section

variable [LinearOrder R] [NatCast R]

/-- `replace` finds a position to evict when there is one in `t2`, or when a ghost of `b2` asks for
    one of `t1`. -/
theorem replace (h : s.Lists m) (pos : Nat)
    (hne : s.t2.list ≠ [] ∨ s.t1.list ≠ [] ∧ pos ∈ s.b2.hashMap) :
    ∃ s' m', s.replace m pos = some (s', m') ∧ Replaced s s' m m' := by
  have hsize := h.sizes.1
  unfold ARC.replace
  split
  · next hcond =>
    have ht1 : s.t1.list ≠ [] := by
      intro hnil
      rw [hsize, hnil] at hcond
      exact absurd hcond.1 (lt_irrefl 0)
    obtain ⟨n, t1, hpop, hlist, hindexed⟩ := h.t1.popBack h.distinct_t1.keys ht1
    rw [hpop]
    have hn : n.key ∈ s.residents.map Lib.ListNode.key := by
      unfold residents
      rw [hlist]
      simp
    have hnot : n.key ∉ s.b1.keys := fun hmem => h.not_ghost hn (by
      unfold ghosts
      rw [List.map_append]
      exact List.mem_append_left _ hmem)
    have hlists := h.evict { s with t1 := t1, b1 := s.b1.pushFront s.nextNode n.key,
                                     nextNode := s.nextNode + 1 } (n := n) (by
      unfold residents
      rw [hlist, List.append_assoc]
      exact List.perm_middle) (.refl _) rfl hindexed h.t2 (h.b1.pushFront hnot _) h.b2
    refine ⟨_, _, rfl, hlists, rfl, List.sublist_cons_self .., .refl _,
      fun p hp => (AList.mem_erase.mp hp).2, evict_ghosts hn (.refl _), Or.inl ?_⟩
    rw [hlist]
    exact ⟨List.length_append, rfl, rfl, rfl⟩
  · next hcond =>
    have ht2 : s.t2.list ≠ [] := by
      rcases hne with ht2 | ⟨ht1, hpos⟩
      · exact ht2
      · -- any two values of `arc_p` compare
        exfalso
        apply hcond
        rw [hsize]
        refine ⟨List.length_pos_iff.mpr ht1, ?_⟩
        rcases lt_or_ge s.arcP ((s.t1.list.length : R)) with hlt | hge
        · exact Or.inl hlt
        · exact Or.inr ⟨hpos, hge⟩
    obtain ⟨n, t2, hpop, hlist, hindexed⟩ := h.t2.popBack h.distinct_t2.keys ht2
    rw [hpop]
    have hn : n.key ∈ s.residents.map Lib.ListNode.key := by
      unfold residents
      rw [hlist]
      simp
    have hnot : n.key ∉ s.b2.keys := fun hmem => h.not_ghost hn (by
      unfold ghosts
      rw [List.map_append]
      exact List.mem_append_right _ hmem)
    have hghosts : (s.b1.list ++ ⟨s.nextNode, n.key⟩ :: s.b2.list).Perm
        (⟨s.nextNode, n.key⟩ :: s.ghosts) := List.perm_middle
    have hlists := h.evict { s with t2 := t2, b2 := s.b2.pushFront s.nextNode n.key,
                                     nextNode := s.nextNode + 1 } (n := n) (by
      unfold residents
      rw [hlist, ← List.append_assoc]
      exact List.perm_append_singleton n _) hghosts rfl h.t1 hindexed h.b1 (h.b2.pushFront hnot _)
    refine ⟨_, _, rfl, hlists, rfl, .refl _, List.sublist_cons_self ..,
      fun p hp => (AList.mem_erase.mp hp).2, evict_ghosts hn hghosts, Or.inr ?_⟩
    rw [hlist]
    exact ⟨rfl, List.length_append, rfl, rfl⟩

/-- Room for a position that is in no list. -/
theorem makeRoom (h : s.Lists m) (pos : Nat) (hsize : 1 ≤ s.arcC)
    (hsizes : Sizes s.arcC s.t1.list.length s.t2.list.length s.b1.list.length s.b2.list.length) :
    ∃ s' m', s.makeRoom m pos = some (s', m') ∧ s'.Lists m' ∧ s'.arcC = s.arcC ∧
      (∀ p ∈ m', p ∈ m) ∧
      (∀ p, p ∈ s'.ghosts.map Lib.ListNode.key →
        p ∈ s.ghosts.map Lib.ListNode.key ∨ p ∈ s.residents.map Lib.ListNode.key) ∧
      Sizes s'.arcC (s'.t1.list.length + 1) s'.t2.list.length s'.b1.list.length
        s'.b2.list.length := by
  obtain ⟨ht1, ht2, hb1, hb2⟩ := h.sizes
  obtain ⟨hcache, hfirst, htotal, hfull⟩ := hsizes
  unfold ARC.makeRoom
  rw [ht1, ht2, hb1, hb2]
  dsimp only
  split
  · next hge =>
    split
    · next hlt =>
      -- `t1` and `b1` are full, with a ghost among them
      have hne : s.b1.list ≠ [] := List.ne_nil_of_length_pos (by omega)
      have ht2ne : s.t2.list ≠ [] := List.ne_nil_of_length_pos (by
        have := hfull (Or.inl (by omega))
        omega)
      obtain ⟨r, b1, hpop, hlength, hlists, hsub⟩ := h.forget_b1 hne
      rw [hpop]
      obtain ⟨s', m', hreplace, hr⟩ := hlists.replace pos (Or.inl ht2ne)
      refine ⟨s', m', hreplace, hr.lists, hr.arcC, hr.cached, ?_, ?_⟩
      · intro p hp
        rcases hr.ghosts p hp with hg | hg
        · exact Or.inl ((hsub.map _).subset hg)
        · exact Or.inr hg
      · have hlengths := hr.lengths
        dsimp only at hlengths
        rw [hr.arcC]
        unfold Sizes
        dsimp only
        omega
    · next hle =>
      -- `t1` alone fills the cache
      have hne : s.t1.list ≠ [] := List.ne_nil_of_length_pos (by omega)
      obtain ⟨r, t1, hpop, hlength, hlists⟩ := h.drop_t1 hne
      rw [hpop]
      refine ⟨_, _, rfl, hlists, rfl, fun p hp => (AList.mem_erase.mp hp).2,
        fun p hp => Or.inl hp, ?_⟩
      unfold Sizes
      dsimp only
      omega
  · next hlt =>
    split
    · next hge =>
      have ht2ne : s.t2.list ≠ [] := List.ne_nil_of_length_pos (by omega)
      split
      · next hmany =>
        -- all four lists are full, so `b2` is not empty
        have hne : s.b2.list ≠ [] := List.ne_nil_of_length_pos (by omega)
        obtain ⟨r, b2, hpop, hlength, hlists, hsub⟩ := h.forget_b2 hne
        rw [hpop]
        obtain ⟨s', m', hreplace, hr⟩ := hlists.replace pos (Or.inl ht2ne)
        refine ⟨s', m', hreplace, hr.lists, hr.arcC, hr.cached, ?_, ?_⟩
        · intro p hp
          rcases hr.ghosts p hp with hg | hg
          · exact Or.inl ((hsub.map _).subset hg)
          · exact Or.inr hg
        · have hlengths := hr.lengths
          dsimp only at hlengths
          rw [hr.arcC]
          unfold Sizes
          dsimp only
          omega
      · next hfew =>
        obtain ⟨s', m', hreplace, hr⟩ := h.replace pos (Or.inl ht2ne)
        refine ⟨s', m', hreplace, hr.lists, hr.arcC, hr.cached, hr.ghosts, ?_⟩
        have hlengths := hr.lengths
        rw [hr.arcC]
        unfold Sizes
        omega
    · next hfree =>
      refine ⟨s, m, rfl, h, rfl, fun p hp => hp, fun p hp => Or.inl hp, ?_⟩
      unfold Sizes
      omega

end

end Lists

/-! ## Puts -/

section

variable [NatCast R] [One R] [Div R] {s : ARC R}

/-- The deltas do not divide by the size of an empty list. -/
theorem getDelta1_ne_none (hb1 : s.b1.size ≠ 0) : ∃ delta, s.getDelta1 = some delta := by
  unfold getDelta1
  split
  · exact ⟨_, rfl⟩
  · exact ⟨_, rfl⟩

theorem getDelta2_ne_none (hb2 : s.b2.size ≠ 0) : ∃ delta, s.getDelta2 = some delta := by
  unfold getDelta2
  split
  · exact ⟨_, rfl⟩
  · exact ⟨_, rfl⟩

end

section

variable [LinearOrder R] [NatCast R] [Zero R] [One R] [Add R] [Sub R] [Div R]
variable {s : ARC R} {m : CacheMap} {cacheSize pos : Nat}

/-- A ghost of `b1` is put again. -/
theorem Lists.put_b1 (h : s.Lists m)
    (hsizes : Sizes s.arcC s.t1.list.length s.t2.list.length s.b1.list.length s.b2.list.length)
    (hpos : pos ∉ m) {it : Nat} (hit : s.b1.hashMap.lookup pos = some it) (data : String) :
    ∃ s' m', s.cachePutMiss m pos = some (s', m') ∧ s'.Lists (m'.insert pos data) ∧
      s'.arcC = s.arcC ∧ Sizes s'.arcC s'.t1.list.length s'.t2.list.length s'.b1.list.length
        s'.b2.list.length := by
  obtain ⟨-, -, hb1, -⟩ := h.sizes
  obtain ⟨hcache, hfirst, htotal, hfull⟩ := hsizes
  have hmem : ⟨it, pos⟩ ∈ s.b1.list := (h.b1 pos it).mp hit
  have hb1pos := List.length_pos_of_mem hmem
  have hbusy := hfull (Or.inl (by omega))
  -- `b1` takes some of the room of `t1`, so `t2` is not empty
  have ht2 : s.t2.list ≠ [] := List.ne_nil_of_length_pos (by omega)
  obtain ⟨delta, hdelta⟩ := getDelta1_ne_none (s := s) (by omega)
  obtain ⟨s', m', hreplace, hr⟩ :=
    (h.setP (min (s.arcP + delta) s.arcC)).replace pos (Or.inl ht2)
  have hpos' : pos ∉ m' := fun hin => hpos (hr.cached pos hin)
  have hit' : s'.b1.hashMap.lookup pos = some it := (hr.lists.b1 pos it).mpr (hr.b1.subset hmem)
  obtain ⟨n, b1, t2, hmove, hn, hperm, hlist, hib1, hit2⟩ := hr.lists.b1.moveTo hr.lists.t2
    hr.lists.distinct_b1.keys hr.lists.distinct_b1.addrs hit' (hr.lists.not_t2 hpos')
  have hlists : Lists { s' with b1 := b1, t2 := t2 } (m'.insert n.key data) := by
    refine hr.lists.revive { s' with b1 := b1, t2 := t2 } ?_ ?_ rfl hr.lists.t1 hit2 hib1 hr.lists.b2 data
    · unfold residents
      rw [hlist]
      exact List.perm_middle
    · exact hperm.append_right _
  rw [hn] at hlists
  refine ⟨_, _, ?_, hlists, hr.arcC, ?_⟩
  · unfold cachePutMiss
    rw [hit]
    dsimp only
    rw [hdelta]
    dsimp only
    rw [hreplace]
    dsimp only
    rw [hmove]
  · have hlength := hperm.length_eq
    have hlengths := hr.lengths
    rw [List.length_cons] at hlength
    show Sizes s'.arcC s'.t1.list.length t2.list.length b1.list.length s'.b2.list.length
    rw [hr.arcC, hlist, List.length_cons]
    unfold Sizes
    dsimp only at hlengths ⊢
    omega

/-- A ghost of `b2` is put again. -/
theorem Lists.put_b2 (h : s.Lists m) (hsize : 1 ≤ s.arcC)
    (hsizes : Sizes s.arcC s.t1.list.length s.t2.list.length s.b1.list.length s.b2.list.length)
    (hpos : pos ∉ m) (hb1 : s.b1.hashMap.lookup pos = none) {it : Nat}
    (hit : s.b2.hashMap.lookup pos = some it) (data : String) :
    ∃ s' m', s.cachePutMiss m pos = some (s', m') ∧ s'.Lists (m'.insert pos data) ∧
      s'.arcC = s.arcC ∧ Sizes s'.arcC s'.t1.list.length s'.t2.list.length s'.b1.list.length
        s'.b2.list.length := by
  obtain ⟨-, -, -, hb2⟩ := h.sizes
  obtain ⟨hcache, hfirst, htotal, hfull⟩ := hsizes
  have hmem : ⟨it, pos⟩ ∈ s.b2.list := (h.b2 pos it).mp hit
  have hb2pos := List.length_pos_of_mem hmem
  have hbusy := hfull (Or.inr (by omega))
  -- the cache is full, and a ghost of `b2` has `replace` take from `t1`
  have hne : s.t2.list ≠ [] ∨ s.t1.list ≠ [] ∧ pos ∈ s.b2.hashMap := by
    by_cases ht2 : s.t2.list = []
    · right
      have hzero := congrArg List.length ht2
      rw [List.length_nil] at hzero
      refine ⟨List.ne_nil_of_length_pos (by omega), ?_⟩
      rw [← AList.lookup_isSome, hit]
      rfl
    · exact Or.inl ht2
  obtain ⟨delta, hdelta⟩ := getDelta2_ne_none (s := s) (by omega)
  obtain ⟨s', m', hreplace, hr⟩ := (h.setP (max (s.arcP - delta) 0)).replace pos hne
  have hpos' : pos ∉ m' := fun hin => hpos (hr.cached pos hin)
  have hit' : s'.b2.hashMap.lookup pos = some it := (hr.lists.b2 pos it).mpr (hr.b2.subset hmem)
  obtain ⟨n, b2, t2, hmove, hn, hperm, hlist, hib2, hit2⟩ := hr.lists.b2.moveTo hr.lists.t2
    hr.lists.distinct_b2.keys hr.lists.distinct_b2.addrs hit' (hr.lists.not_t2 hpos')
  have hlists : Lists { s' with b2 := b2, t2 := t2 } (m'.insert n.key data) := by
    refine hr.lists.revive { s' with b2 := b2, t2 := t2 } ?_ ?_ rfl hr.lists.t1 hit2 hr.lists.b1 hib2 data
    · unfold residents
      rw [hlist]
      exact List.perm_middle
    · exact (hperm.append_left _).trans List.perm_middle
  rw [hn] at hlists
  refine ⟨_, _, ?_, hlists, hr.arcC, ?_⟩
  · unfold cachePutMiss
    rw [hb1]
    dsimp only
    rw [hit]
    dsimp only
    rw [hdelta]
    dsimp only
    rw [hreplace]
    dsimp only
    rw [hmove]
  · have hlength := hperm.length_eq
    have hlengths := hr.lengths
    rw [List.length_cons] at hlength
    show Sizes s'.arcC s'.t1.list.length t2.list.length s'.b1.list.length b2.list.length
    rw [hr.arcC, hlist, List.length_cons]
    unfold Sizes
    dsimp only at hlengths ⊢
    omega

/-- A position that is in no list is put. -/
theorem Lists.put_new (h : s.Lists m) (hsize : 1 ≤ s.arcC)
    (hsizes : Sizes s.arcC s.t1.list.length s.t2.list.length s.b1.list.length s.b2.list.length)
    (hpos : pos ∉ m) (hb1 : s.b1.hashMap.lookup pos = none)
    (hb2 : s.b2.hashMap.lookup pos = none) (data : String) :
    ∃ s' m', s.cachePutMiss m pos = some (s', m') ∧ s'.Lists (m'.insert pos data) ∧
      s'.arcC = s.arcC ∧ Sizes s'.arcC s'.t1.list.length s'.t2.list.length s'.b1.list.length
        s'.b2.list.length := by
  obtain ⟨s', m', hroom, hlists, harcC, hcached, hghosts, hsizes'⟩ :=
    h.makeRoom pos hsize hsizes
  -- making room turns no ghost list entry into this position
  have hghost : pos ∉ s'.ghosts.map Lib.ListNode.key := by
    intro hin
    rcases hghosts pos hin with hg | hres
    · rcases h.ghost_iff.mp hg with hg | hg
      · exact AList.lookup_eq_none.mp hb1 hg
      · exact AList.lookup_eq_none.mp hb2 hg
    · exact hpos ((h.cached pos).mpr hres)
  refine ⟨_, m', ?_, hlists.push (fun hin => hpos (hcached pos hin)) hghost data, harcC, hsizes'⟩
  unfold cachePutMiss
  rw [hb1]
  dsimp only
  rw [hb2]
  dsimp only
  rw [hroom]

end

/-! ## The invariant -/

/-- What holds after every call. -/
structure Invariant (cacheSize : Nat) (c : Cache (ARC R)) : Prop where
  arcC : c.eviction.arcC = cacheSize
  lists : c.eviction.Lists c.cacheMap
  sizes : Sizes c.eviction.arcC c.eviction.t1.list.length c.eviction.t2.list.length
    c.eviction.b1.list.length c.eviction.b2.list.length

namespace Invariant

variable {c : Cache (ARC R)} {cacheSize : Nat}

theorem new (cacheSize : Nat) (p : R) : Invariant cacheSize ⟨∅, ARC.new cacheSize p⟩ := by
  refine ⟨rfl, ⟨.nil 0, Lib.IndexedList.indexed_empty, Lib.IndexedList.indexed_empty,
    Lib.IndexedList.indexed_empty, Lib.IndexedList.indexed_empty, ?_⟩, ?_⟩
  · intro pos
    constructor
    · intro h
      exact absurd h (AList.notMem_empty pos)
    · intro h
      cases h
  · unfold Sizes
    simp [ARC.new, Lib.IndexedList.empty]

/-- `arc_p` may have any value. -/
theorem setP (h : Invariant cacheSize c) (p : R) :
    Invariant cacheSize { c with eviction := { c.eviction with arcP := p } } :=
  ⟨h.arcC, h.lists.setP p, h.sizes⟩

/-- A hit: the position moves to the front of `t2`. -/
theorem cacheGetHit (h : Invariant cacheSize c) (pos : Nat) :
    ∃ s, c.eviction.cacheGetHit pos = some s ∧ Invariant cacheSize ⟨c.cacheMap, s⟩ := by
  have hl := h.lists
  unfold ARC.cacheGetHit
  split
  · -- a hit in the first list moves the entry to the second
    next it hit =>
    have hmem : ⟨it, pos⟩ ∈ c.eviction.t1.list := (hl.t1 pos it).mp hit
    have hnot : pos ∉ c.eviction.t2.keys := by
      have hnodup := hl.distinct.append_left.keys
      unfold residents at hnodup
      rw [List.map_append] at hnodup
      intro hin
      exact (List.nodup_append.mp hnodup).2.2 pos
        (List.mem_map_of_mem (f := Lib.ListNode.key) hmem) pos hin rfl
    obtain ⟨n, t1, t2, hmove, hn, hperm, hlist, hit1, hit2⟩ := hl.t1.moveTo hl.t2
      hl.distinct_t1.keys hl.distinct_t1.addrs hit hnot
    rw [hmove]
    -- the two lists together hold the same entries
    have hresidents : c.eviction.residents.Perm (t1.list ++ t2.list) := by
      rw [hlist]
      exact (hperm.append_right _).trans List.perm_middle.symm
    refine ⟨_, rfl, h.arcC, hl.rearrange (hresidents.append_right _) rfl hit1 hit2 hl.b1 hl.b2 ?_, ?_⟩
    · intro p
      exact (hl.cached p).trans (hresidents.map Lib.ListNode.key).mem_iff
    · have hlength := hperm.length_eq
      have hsizes := h.sizes
      rw [List.length_cons] at hlength
      show Sizes c.eviction.arcC t1.list.length t2.list.length c.eviction.b1.list.length
        c.eviction.b2.list.length
      rw [hlist, List.length_cons]
      unfold Sizes at hsizes ⊢
      omega
  · split
    · -- a hit in the second list moves the entry to its front
      next it hit =>
      have hmem : ⟨it, pos⟩ ∈ c.eviction.t2.list := (hl.t2 pos it).mp hit
      obtain ⟨l₁, l₂, hlist, hcut⟩ := Lib.cut_of_mem hl.distinct_t2.addrs hmem
      dsimp only at hcut
      rw [hcut]
      have hperm : c.eviction.t2.list.Perm (⟨it, pos⟩ :: (l₁ ++ l₂)) := by
        rw [hlist]
        exact List.perm_middle
      have hresidents := hperm.append_left c.eviction.t1.list
      refine ⟨_, rfl, h.arcC, hl.rearrange (hresidents.append_right _) rfl hl.t1 (hl.t2.perm hperm)
        hl.b1 hl.b2 ?_, ?_⟩
      · intro p
        exact (hl.cached p).trans (hresidents.map Lib.ListNode.key).mem_iff
      · have hsizes := h.sizes
        rw [hperm.length_eq] at hsizes
        exact hsizes
    · -- a miss in both changes nothing
      exact ⟨_, rfl, h⟩

section

variable [LinearOrder R] [NatCast R] [Zero R] [One R] [Add R] [Sub R] [Div R]

/-- One of the branches of `cache_put_miss`. -/
theorem cachePutMiss (h : Invariant cacheSize c) (hsize : 1 ≤ cacheSize) {pos : Nat}
    (hpos : pos ∉ c.cacheMap) (data : String) :
    ∃ s m, c.eviction.cachePutMiss c.cacheMap pos = some (s, m) ∧
      Invariant cacheSize ⟨m.insert pos data, s⟩ := by
  have hc : 1 ≤ c.eviction.arcC := by
    rw [h.arcC]
    exact hsize
  -- the three kinds of a miss
  cases hb1 : c.eviction.b1.hashMap.lookup pos with
  | some it =>
    obtain ⟨s, m, hput, hlists, harcC, hsizes⟩ := h.lists.put_b1 h.sizes hpos hb1 data
    exact ⟨s, m, hput, harcC.trans h.arcC, hlists, hsizes⟩
  | none =>
    cases hb2 : c.eviction.b2.hashMap.lookup pos with
    | some it =>
      obtain ⟨s, m, hput, hlists, harcC, hsizes⟩ := h.lists.put_b2 hc h.sizes hpos hb1 hb2 data
      exact ⟨s, m, hput, harcC.trans h.arcC, hlists, hsizes⟩
    | none =>
      obtain ⟨s, m, hput, hlists, harcC, hsizes⟩ := h.lists.put_new hc h.sizes hpos hb1 hb2 data
      exact ⟨s, m, hput, harcC.trans h.arcC, hlists, hsizes⟩

/-- **Step lemma.** -/
theorem call (h : Invariant cacheSize c) (hsize : 1 ≤ cacheSize) {x : CacheCall}
    (hx : ∀ pos, x ≠ .remove pos) :
    ∃ c', c.call policy cacheSize x = some c' ∧ Invariant cacheSize c' := by
  cases x with
  | put pos data =>
    simp only [Cache.call, Cache.put]
    split
    · -- only data that is shorter than the cache and not yet stored is put
      next hok =>
      obtain ⟨s, m, hput, hinv⟩ := h.cachePutMiss hsize hok.2.2 data
      dsimp only [policy]
      rw [hput]
      exact ⟨_, rfl, hinv⟩
    · exact ⟨c, rfl, h⟩
  | get pos =>
    simp only [Cache.call, Cache.get]
    split
    · next data hdata =>
      obtain ⟨s, hget, hinv⟩ := h.cacheGetHit pos
      dsimp only [policy]
      rw [hget]
      exact ⟨_, rfl, hinv⟩
    · exact ⟨c, rfl, h⟩
  | remove pos => exact absurd rfl (hx pos)

end

end Invariant

/-- The lists have no position in common or twice and agree with their hash maps, their sizes are
    bounded, and the cache holds the positions of `t1` and `t2`. -/
structure Coherent (cacheSize : Nat) (c : Cache (ARC R)) : Prop where
  nodup : (c.eviction.t1.keys ++ c.eviction.t2.keys ++ c.eviction.b1.keys ++
    c.eviction.b2.keys).Nodup
  indexed : ∀ q ∈ [c.eviction.t1, c.eviction.t2, c.eviction.b1, c.eviction.b2], q.Indexed
  resident : c.eviction.t1.list.length + c.eviction.t2.list.length ≤ cacheSize
  first : c.eviction.t1.list.length + c.eviction.b1.list.length ≤ cacheSize
  total : c.eviction.t1.list.length + c.eviction.t2.list.length + c.eviction.b1.list.length +
    c.eviction.b2.list.length ≤ 2 * cacheSize
  full : c.eviction.b1.list ≠ [] ∨ c.eviction.b2.list ≠ [] →
    c.eviction.t1.list.length + c.eviction.t2.list.length = cacheSize
  cached : ∀ pos, pos ∈ c.cacheMap ↔ pos ∈ c.eviction.t1.keys ∨ pos ∈ c.eviction.t2.keys

theorem Invariant.coherent {c : Cache (ARC R)} {cacheSize : Nat} (h : Invariant cacheSize c) :
    Coherent cacheSize c := by
  have hl := h.lists
  obtain ⟨hresident, hfirst, htotal, hfull⟩ := h.arcC ▸ h.sizes
  refine ⟨?_, ?_, hresident, hfirst, htotal, ?_, ?_⟩
  · have hnodup := hl.distinct.keys
    unfold residents ghosts at hnodup
    rw [← List.append_assoc, List.map_append, List.map_append, List.map_append] at hnodup
    exact hnodup
  · intro q hq
    simp only [List.mem_cons, List.not_mem_nil, or_false] at hq
    rcases hq with rfl | rfl | rfl | rfl
    · exact hl.t1
    · exact hl.t2
    · exact hl.b1
    · exact hl.b2
  · rintro (hne | hne)
    · exact hfull (Or.inl fun h0 => hne (List.length_eq_zero_iff.mp h0))
    · exact hfull (Or.inr fun h0 => hne (List.length_eq_zero_iff.mp h0))
  · intro pos
    rw [hl.cached]
    unfold residents
    rw [List.map_append, List.mem_append]
    rfl

variable [LinearOrder R] [NatCast R] [Zero R] [One R] [Add R] [Sub R] [Div R]

/-- A call; `arc_p` has the given value before it. -/
def step (cacheSize : Nat) (c : Cache (ARC R)) (x : R × CacheCall) : Option (Cache (ARC R)) :=
  { c with eviction := { c.eviction with arcP := x.1 } }.call policy cacheSize x.2

/-- **Run lemma.** -/
theorem Invariant.run {cacheSize : Nat} (hsize : 1 ≤ cacheSize) {c : Cache (ARC R)}
    (h : Invariant cacheSize c) {calls : List (R × CacheCall)}
    (hcalls : ∀ x ∈ calls, ∀ pos, x.2 ≠ .remove pos) :
    ∃ c', Lib.exec (step cacheSize) c calls = some c' ∧ Invariant cacheSize c' := by
  induction calls generalizing c with
  | nil => exact ⟨c, rfl, h⟩
  | cons x calls ih =>
    obtain ⟨c₁, hcall, hinv⟩ := (h.setP x.1).call hsize (hcalls x (List.mem_cons_self ..))
    obtain ⟨c₂, hrun, hinv'⟩ := ih hinv fun y hy => hcalls y (List.mem_cons_of_mem _ hy)
    refine ⟨c₂, ?_, hinv'⟩
    have hstep : step cacheSize c x = some c₁ := hcall
    simp only [Lib.exec, hstep]
    exact hrun

end ARC

/-- **ARC invariants**: after any sequence of puts and gets of a new cache, whatever `arc_p` holds
    before each of them, the four lists are coherent; no call takes from an empty list, divides by
    zero or has undefined behaviour otherwise. -/
theorem arc_invariant {R : Type} [LinearOrder R] [NatCast R] [Zero R] [One R] [Add R] [Sub R]
    [Div R] {cacheSize : Nat} (hsize : 1 ≤ cacheSize) (p : R) (calls : List (R × CacheCall))
    (hcalls : ∀ x ∈ calls, ∀ pos, x.2 ≠ .remove pos) :
    ∃ c, Lib.exec (ARC.step cacheSize) ⟨∅, ARC.new cacheSize p⟩ calls = some c ∧
      ARC.Coherent cacheSize c := by
  obtain ⟨c, hrun, hinv⟩ := (ARC.Invariant.new cacheSize p).run hsize hcalls
  exact ⟨c, hrun, hinv.coherent⟩

/-- Three positions for a cache of two, with a hit and a position that comes back as a ghost. -/
theorem arc_invariant_two :
    ∃ c, Lib.exec (ARC.step 2) ⟨∅, ARC.new 2 (0 : ℚ)⟩
        [(0, .put 1 "a"), (0, .put 2 "b"), (1, .get 1), (1 / 2, .put 3 "c"), (2, .put 2 "b")] =
      some c ∧ ARC.Coherent 2 c := by
  apply arc_invariant (by decide)
  intro x hx pos heq
  simp only [List.mem_cons, List.not_mem_nil, or_false] at hx
  rcases hx with rfl | rfl | rfl | rfl | rfl
  all_goals cases heq

end ZLog
