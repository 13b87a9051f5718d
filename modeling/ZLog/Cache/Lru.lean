import ZLog.Cache.Basic

/-!
# The LRU policy

The policy keeps the positions of the cache in a list, the last one used in front, with an index of
the list's nodes.  `Cache::remove` takes a position out of `cache_map` alone, so the three structures
agree until it finds one there.

## Main results

- `LRU.Agrees.put`, `LRU.Agrees.get`: puts and gets move the three structures together.
- `lru_coherent_iff`: a sequence of calls keeps the cache coherent exactly when its removes miss.
-/

namespace ZLog

open CacheEvent (age latest)

/-! ## The policy -/

/-- `eviction_list` with `eviction_hash_map`, and the address of the next list node. -/
structure LRU where
  eviction : Lib.IndexedList Nat
  cacheSize : Nat
  nextNode : Nat

namespace LRU

def new (cacheSize : Nat) : LRU := ⟨.empty, cacheSize, 0⟩

/-- A position without an entry has a singular iterator. -/
def cacheGetHit (s : LRU) (pos : Nat) : Option LRU :=
  match s.eviction.hashMap.lookup pos with
  | none => none
  | some it =>
    match Lib.cut s.eviction.list it with
    | none => none
    | some (node, rest) => some { s with eviction := { s.eviction with list := node :: rest } }

def cachePutMiss (s : LRU) (cacheMap : CacheMap) (pos : Nat) : Option (LRU × CacheMap) :=
  let eviction := s.eviction.pushFront s.nextNode pos
  if s.cacheSize < eviction.size then
    match eviction.popBack with
    | none => none
    | some (r, eviction) =>
      some ({ s with eviction := eviction, nextNode := s.nextNode + 1 }, cacheMap.erase r)
  else some ({ s with eviction := eviction, nextNode := s.nextNode + 1 }, cacheMap)

def policy : Eviction LRU := ⟨cacheGetHit, cachePutMiss⟩

/-- The start of a cache. -/
def start (cacheSize : Nat) : CacheTrace LRU := ⟨⟨∅, new cacheSize⟩, []⟩

abbrev step (cacheSize : Nat) : CacheTrace LRU → CacheCall → Option (CacheTrace LRU) :=
  CacheTrace.step policy cacheSize

/-! ## Coherence -/

/-- The list has no position twice, its positions are the keys of `eviction_hash_map` and of
    `cache_map`, `cache_size` at most; every entry of the hash map points at its own node; and a get
    returns the data of the latest put that was neither evicted nor removed. -/
structure Coherent (cacheSize : Nat) (t : CacheTrace LRU) : Prop where
  nodup : t.cache.eviction.eviction.keys.Nodup
  hashed : ∀ pos, pos ∈ t.cache.eviction.eviction.keys ↔ pos ∈ t.cache.eviction.eviction.hashMap
  cached : ∀ pos, pos ∈ t.cache.eviction.eviction.keys ↔ pos ∈ t.cache.cacheMap
  bound : t.cache.eviction.eviction.list.length ≤ cacheSize
  nodes : (t.cache.eviction.eviction.list.map Lib.ListNode.addr).Nodup
  points : ∀ pos it, t.cache.eviction.eviction.hashMap.lookup pos = some it →
    ⟨it, pos⟩ ∈ t.cache.eviction.eviction.list
  gets : ∀ pos, (t.cache.get policy pos).map Prod.snd = some (latest t.history pos)

/-- A put into a full cache evicts the position that was put or got least recently, and no other
    call evicts any. -/
def EvictsLeast (cacheSize : Nat) (t t' : CacheTrace LRU) : CacheCall → Prop
  | .put pos data =>
    if pos ∉ t.cache.cacheMap ∧ data.utf8ByteSize < cacheSize ∧
        t.cache.cacheMap.keys.length = cacheSize then
      ∃ r ∈ t.cache.cacheMap, t.cache.cacheMap.lost t'.cache.cacheMap = [r] ∧
        ∀ q ∈ t.cache.cacheMap, q ≠ r → age t.history q < age t.history r
    else t.cache.cacheMap.lost t'.cache.cacheMap = []
  | .get _ => t'.cache.cacheMap = t.cache.cacheMap
  | .remove pos => ∀ q ∈ t.cache.cacheMap, q ≠ pos → q ∈ t'.cache.cacheMap

/-- The cache stays coherent along the calls, none of which has undefined behaviour. -/
def Behaves (cacheSize : Nat) (t : CacheTrace LRU) : List CacheCall → Prop
  | [] => Coherent cacheSize t
  | call :: calls => Coherent cacheSize t ∧ ∃ t', step cacheSize t call = some t' ∧
      EvictsLeast cacheSize t t' call ∧ Behaves cacheSize t' calls

/-- No remove finds its position in the cache. -/
def RemovesMiss (cacheSize : Nat) (t : CacheTrace LRU) : List CacheCall → Prop
  | [] => True
  | call :: calls => (∀ pos, call = .remove pos → pos ∉ t.cache.cacheMap) ∧
      ∀ t', step cacheSize t call = some t' → RemovesMiss cacheSize t' calls

/-! ## The invariant -/

/-- The list is in the order of the last uses, and the other structures follow it. -/
structure Agrees (cacheSize : Nat) (t : CacheTrace LRU) : Prop where
  size : t.cache.eviction.cacheSize = cacheSize
  distinct : Lib.Distinct t.cache.eviction.eviction.list t.cache.eviction.nextNode
  indexed : t.cache.eviction.eviction.Indexed
  cached : ∀ pos, pos ∈ t.cache.eviction.eviction.keys ↔ pos ∈ t.cache.cacheMap
  bound : t.cache.eviction.eviction.list.length ≤ cacheSize
  order : t.cache.eviction.eviction.keys.Pairwise (fun p q => age t.history p < age t.history q)
  latest : ∀ pos, t.cache.cacheMap.lookup pos = latest t.history pos

namespace Agrees

variable {cacheSize pos : Nat} {t t' : CacheTrace LRU} {call : CacheCall}

theorem start (cacheSize : Nat) : Agrees cacheSize (LRU.start cacheSize) := by
  refine ⟨rfl, .nil 0, Lib.IndexedList.indexed_empty, ?_, Nat.zero_le _, List.Pairwise.nil, ?_⟩
  · intro pos
    constructor
    · intro h
      cases h
    · intro h
      exact absurd h (AList.notMem_empty pos)
  · intro pos
    rfl

/-- The list with the position used last in front. -/
theorem order_front {h h' : List CacheEvent} {keys keys' : List Nat} {j : Nat}
    (horder : keys.Pairwise (fun p q => age h p < age h q)) (hsub : keys'.Sublist keys)
    (hpos : pos ∉ keys') (hzero : age h' pos = 0)
    (hold : ∀ p, p ≠ pos → age h' p = j + 1 + age h p) :
    (pos :: keys').Pairwise (fun p q => age h' p < age h' q) := by
  have hne : ∀ p ∈ keys', p ≠ pos := fun p hp heq => hpos (heq ▸ hp)
  refine List.pairwise_cons.mpr ⟨?_, ?_⟩
  · intro p hp
    rw [hzero, hold p (hne p hp)]
    omega
  · apply (horder.sublist hsub).imp_of_mem
    intro p q hp hq hlt
    rw [hold p (hne p hp), hold q (hne q hq)]
    omega

/-- The number of positions in `cache_map`. -/
theorem length_keys (h : Agrees cacheSize t) :
    t.cache.cacheMap.keys.length = t.cache.eviction.eviction.list.length := by
  have hperm : t.cache.cacheMap.keys.Perm t.cache.eviction.eviction.keys := by
    apply (List.perm_ext_iff_of_nodup t.cache.cacheMap.keys_nodup h.distinct.keys).mpr
    intro p
    exact (h.cached p).symm
  rw [hperm.length_eq]
  exact List.length_map ..

/-- What the policy does with a new position. -/
theorem cachePutMiss_cases (h : Agrees cacheSize t) (hsize : 0 < cacheSize)
    (hpos : pos ∉ t.cache.cacheMap) :
    ∃ eviction cacheMap, t.cache.eviction.cachePutMiss t.cache.cacheMap pos =
        some (⟨eviction, cacheSize, t.cache.eviction.nextNode + 1⟩, cacheMap) ∧
      eviction.Indexed ∧
      ((t.cache.eviction.eviction.list.length < cacheSize ∧ cacheMap = t.cache.cacheMap ∧
          eviction.list = ⟨t.cache.eviction.nextNode, pos⟩ :: t.cache.eviction.eviction.list) ∨
        ∃ l n, t.cache.eviction.eviction.list.length = cacheSize ∧
          t.cache.eviction.eviction.list = l ++ [n] ∧
          cacheMap = t.cache.cacheMap.erase n.key ∧
          eviction.list = ⟨t.cache.eviction.nextNode, pos⟩ :: l) := by
  obtain ⟨⟨m, q, c, next⟩, history⟩ := t
  have hc : c = cacheSize := h.size
  subst hc
  have hnot : pos ∉ q.keys := fun hmem => hpos ((h.cached pos).mp hmem)
  have hindexed := h.indexed.pushFront hnot next
  have hdistinct : Lib.Distinct (q.pushFront next pos).list (next + 1) := h.distinct.cons hnot
  have hlength : (q.pushFront next pos).size = q.list.length + 1 := hindexed.size_eq hdistinct.keys
  have hbound : q.list.length ≤ c := h.bound
  unfold cachePutMiss
  dsimp only
  rw [hlength]
  by_cases hfull : c < q.list.length + 1
  · rw [if_pos hfull]
    obtain ⟨n, q', hpop, hlist, hindexed'⟩ := hindexed.popBack hdistinct.keys (List.cons_ne_nil _ _)
    rw [hpop]
    -- the cache holds a position, so the new node is not the last one
    rcases List.eq_nil_or_concat q.list with hnil | ⟨l, x, hl⟩
    · rw [hnil] at hfull
      simp only [List.length_nil] at hfull
      omega
    · rw [List.concat_eq_append] at hl
      have happ : (⟨next, pos⟩ :: l) ++ [x] = q'.list ++ [n] := by
        rw [← hlist]
        show (⟨next, pos⟩ :: l) ++ [x] = ⟨next, pos⟩ :: q.list
        rw [hl]
        rfl
      obtain ⟨hl', hx⟩ := List.append_inj' happ rfl
      cases hx
      exact ⟨q', m.erase n.key, rfl, hindexed', Or.inr ⟨l, n, by omega, hl, rfl, hl'.symm⟩⟩
  · rw [if_neg hfull]
    exact ⟨_, m, rfl, hindexed, Or.inl ⟨by omega, rfl, rfl⟩⟩

/-- A new position in front of what is left of the list. -/
theorem put_front (h : Agrees cacheSize t) {eviction : Lib.IndexedList Nat} {cacheMap : CacheMap}
    {l : List (Lib.ListNode Nat)} {evicted : List Nat} (hpos : pos ∉ t.cache.cacheMap)
    (hlist : eviction.list = ⟨t.cache.eviction.nextNode, pos⟩ :: l)
    (hsub : l.Sublist t.cache.eviction.eviction.list) (hlength : l.length < cacheSize)
    (hindexed : eviction.Indexed)
    (hcached : ∀ p, p ∈ l.map Lib.ListNode.key ↔ p ∈ cacheMap)
    (hlookup : ∀ p, cacheMap.lookup p = if p ∈ evicted then none else t.cache.cacheMap.lookup p)
    (data : String) :
    Agrees cacheSize ⟨⟨cacheMap.insert pos data,
        ⟨eviction, cacheSize, t.cache.eviction.nextNode + 1⟩⟩,
      .put pos data :: evicted.map .evicted ++ t.history⟩ := by
  have hkeys : (l.map Lib.ListNode.key).Sublist t.cache.eviction.eviction.keys := hsub.map _
  have hnot : pos ∉ l.map Lib.ListNode.key :=
    fun hmem => hpos ((h.cached pos).mp (hkeys.subset hmem))
  refine ⟨rfl, ?_, hindexed, ?_, ?_, ?_, ?_⟩
  · show Lib.Distinct eviction.list _
    rw [hlist]
    exact (h.distinct.sublist hsub).cons hnot
  · intro p
    show p ∈ eviction.list.map Lib.ListNode.key ↔ p ∈ cacheMap.insert pos data
    rw [hlist, List.map_cons, List.mem_cons, AList.mem_insert]
    exact or_congr Iff.rfl (hcached p)
  · show eviction.list.length ≤ cacheSize
    rw [hlist]
    exact hlength
  · show (eviction.list.map Lib.ListNode.key).Pairwise _
    rw [hlist]
    apply order_front (j := evicted.length) h.order hkeys hnot
    · exact (CacheEvent.age_cons _).trans (if_pos rfl)
    · intro p hp
      show age (.put pos data :: (evicted.map .evicted ++ t.history)) p = _
      rw [CacheEvent.age_cons, if_neg (by simpa [CacheEvent.used?] using Ne.symm hp),
        CacheEvent.age_evicted]
      omega
  · intro p
    show (cacheMap.insert pos data).lookup p =
      if pos = p then some data else CacheEvent.latest (evicted.map .evicted ++ t.history) p
    by_cases hp : pos = p
    · subst hp
      rw [AList.lookup_insert, if_pos rfl]
    · rw [AList.lookup_insert_ne (Ne.symm hp), if_neg hp, CacheEvent.latest_evicted, hlookup,
        h.latest]

/-- An accepted put: the position comes in front, and the last one goes when the cache is full. -/
theorem put (h : Agrees cacheSize t) {data : String} (hdata : data.utf8ByteSize < cacheSize)
    (hpos : pos ∉ t.cache.cacheMap) :
    ∃ t', step cacheSize t (.put pos data) = some t' ∧ Agrees cacheSize t' ∧
      EvictsLeast cacheSize t t' (.put pos data) := by
  have hsize : 0 < cacheSize := by omega
  have hlength := h.length_keys
  obtain ⟨eviction, cacheMap, hput, hindexed, hcases⟩ := h.cachePutMiss_cases hsize hpos
  have hstep : step cacheSize t (.put pos data) =
      some ⟨⟨cacheMap.insert pos data, ⟨eviction, cacheSize, t.cache.eviction.nextNode + 1⟩⟩,
        .put pos data :: (t.cache.cacheMap.lost (cacheMap.insert pos data)).map .evicted ++
          t.history⟩ := by
    simp only [CacheTrace.step, Cache.put, if_pos (And.intro hsize (And.intro hdata hpos)),
      show policy.cachePutMiss = cachePutMiss from rfl, hput, if_true]
  rcases hcases with ⟨hfree, hmap, hlist⟩ | ⟨l, n, hfull, hl, hmap, hlist⟩
  · -- there is room
    subst hmap
    have hlost : t.cache.cacheMap.lost (t.cache.cacheMap.insert pos data) = [] :=
      t.cache.cacheMap.lost_same data
    rw [hlost] at hstep
    refine ⟨_, hstep, ?_, ?_⟩
    · exact h.put_front hpos hlist (.refl _) hfree hindexed h.cached (fun p => by simp) data
    · simp only [EvictsLeast]
      rw [if_neg]
      · exact hlost
      · rintro ⟨-, -, heq⟩
        omega
  · -- the last position of the list goes
    have hkeys : t.cache.eviction.eviction.keys = l.map Lib.ListNode.key ++ [n.key] := by
      unfold Lib.IndexedList.keys
      rw [hl, List.map_append]
      rfl
    have hn : n.key ∈ t.cache.cacheMap := by
      apply (h.cached n.key).mp
      rw [hkeys]
      exact List.mem_append_right _ (List.mem_singleton.mpr rfl)
    have hnodup : (l.map Lib.ListNode.key ++ [n.key]).Nodup := hkeys ▸ h.distinct.keys
    have hlast : n.key ∉ l.map Lib.ListNode.key := fun hmem =>
      (List.nodup_append.mp hnodup).2.2 n.key hmem n.key (List.mem_singleton.mpr rfl) rfl
    have hmem : ∀ p, p ∈ t.cache.cacheMap ↔ p ∈ l.map Lib.ListNode.key ∨ p = n.key := by
      intro p
      rw [← h.cached p, hkeys, List.mem_append, List.mem_singleton]
    have hlost : t.cache.cacheMap.lost (cacheMap.insert pos data) = [n.key] := by
      rw [hmap]
      exact CacheMap.lost_erase hn hpos data
    rw [hlost] at hstep
    refine ⟨_, hstep, ?_, ?_⟩
    · apply h.put_front hpos hlist _ _ hindexed _ _ data
      · rw [hl]
        exact List.sublist_append_left l [n]
      · rw [hl, List.length_append, List.length_singleton] at hfull
        omega
      · intro p
        rw [hmap, AList.mem_erase, hmem p]
        constructor
        · intro hp
          exact ⟨fun heq => hlast (heq ▸ hp), Or.inl hp⟩
        · rintro ⟨hne, hp | heq⟩
          · exact hp
          · exact absurd heq hne
      · intro p
        rw [hmap]
        by_cases hp : p = n.key
        · subst hp
          rw [AList.lookup_erase, if_pos (List.mem_singleton.mpr rfl)]
        · rw [AList.lookup_erase_ne hp, if_neg (by simpa using hp)]
    · simp only [EvictsLeast]
      rw [if_pos (And.intro hpos (And.intro hdata (hlength.trans hfull)))]
      refine ⟨n.key, hn, hlost, ?_⟩
      intro q hq hne
      have horder := h.order
      rw [hkeys] at horder
      rcases (hmem q).mp hq with hq | heq
      · exact (List.pairwise_append.mp horder).2.2 q hq n.key (List.mem_singleton.mpr rfl)
      · exact absurd heq hne

/-- A get of a cached position: its node moves to the front. -/
theorem get (h : Agrees cacheSize t) {data : String} (hdata : t.cache.cacheMap.lookup pos = some data) :
    ∃ eviction t', t.cache.get policy pos = some (⟨t.cache.cacheMap, eviction⟩, some data) ∧
      step cacheSize t (.get pos) = some t' ∧ Agrees cacheSize t' ∧
      t'.cache.cacheMap = t.cache.cacheMap := by
  have hmem : pos ∈ t.cache.cacheMap := by
    rw [← AList.lookup_isSome, hdata]
    rfl
  have hkey := (h.cached pos).mpr hmem
  obtain ⟨n, l₁, l₂, hn, hlookup, hlist, hcut⟩ :=
    h.indexed.take h.distinct.addrs (h.indexed.mem_iff.mpr hkey)
  obtain ⟨eviction, heviction⟩ : ∃ eviction : LRU, eviction = { t.cache.eviction with
    eviction := { t.cache.eviction.eviction with list := n :: (l₁ ++ l₂) } } := ⟨_, rfl⟩
  have hhit : t.cache.eviction.cacheGetHit pos = some eviction := by
    unfold cacheGetHit
    rw [hlookup, heviction]
    dsimp only
    rw [hcut]
  have hget : t.cache.get policy pos = some (⟨t.cache.cacheMap, eviction⟩, some data) := by
    unfold Cache.get
    rw [hdata]
    dsimp only [policy]
    rw [hhit]
  have hstep : step cacheSize t (.get pos) =
      some ⟨⟨t.cache.cacheMap, eviction⟩, .got pos :: t.history⟩ := by
    unfold step CacheTrace.step
    dsimp only
    rw [hget]
  have hperm : t.cache.eviction.eviction.list.Perm (n :: (l₁ ++ l₂)) := by
    rw [hlist]
    exact List.perm_middle
  refine ⟨eviction, _, hget, hstep, ?_, rfl⟩
  subst heviction
  have hdistinct := h.distinct.perm hperm
  refine ⟨h.size, hdistinct, h.indexed.perm hperm, ?_, ?_, ?_, ?_⟩
  · intro p
    rw [← h.cached p]
    exact ((hperm.map Lib.ListNode.key).mem_iff (a := p)).symm
  · show (n :: (l₁ ++ l₂)).length ≤ cacheSize
    rw [← hperm.length_eq]
    exact h.bound
  · have hnodup : (n.key :: (l₁ ++ l₂).map Lib.ListNode.key).Nodup := hdistinct.keys
    show ((n :: (l₁ ++ l₂)).map Lib.ListNode.key).Pairwise _
    rw [List.map_cons]
    apply order_front (j := 0) h.order
    · show ((l₁ ++ l₂).map Lib.ListNode.key).Sublist (t.cache.eviction.eviction.list.map _)
      rw [hlist]
      exact ((List.sublist_cons_self n l₂).append_left l₁).map _
    · exact (List.nodup_cons.mp hnodup).1
    · rw [CacheEvent.age_cons, hn]
      exact if_pos rfl
    · intro p hp
      rw [CacheEvent.age_cons, if_neg]
      · omega
      · rw [← hn]
        simpa [CacheEvent.used?] using Ne.symm hp
  · intro p
    exact h.latest p

theorem coherent (h : Agrees cacheSize t) : Coherent cacheSize t := by
  refine ⟨h.distinct.keys, fun p => h.indexed.mem_iff.symm, h.cached, h.bound, h.distinct.addrs,
    fun p it => (h.indexed p it).mp, ?_⟩
  intro p
  rw [← h.latest p]
  cases hdata : t.cache.cacheMap.lookup p with
  | none =>
    unfold Cache.get
    rw [hdata]
    rfl
  | some data =>
    obtain ⟨eviction, t', hget, -⟩ := h.get hdata
    rw [hget]
    rfl

/-- A put that is not accepted. -/
theorem put_rejected {data : String} (hno : ¬ (0 < cacheSize ∧ data.utf8ByteSize < cacheSize ∧
    pos ∉ t.cache.cacheMap)) : step cacheSize t (.put pos data) = some t := by
  simp only [step, CacheTrace.step, Cache.put, if_neg hno]
  rfl

/-- A remove that does not find its position. -/
theorem remove_missed (hpos : pos ∉ t.cache.cacheMap) :
    step cacheSize t (.remove pos) = some t := by
  simp only [step, CacheTrace.step, Cache.remove, if_neg hpos]
  rfl

/-- **Step lemma**: every call but a remove that finds its position keeps the structures in
    agreement. -/
theorem step (h : Agrees cacheSize t) (hmiss : ∀ pos, call = .remove pos → pos ∉ t.cache.cacheMap) :
    ∃ t', LRU.step cacheSize t call = some t' ∧ Agrees cacheSize t' ∧
      EvictsLeast cacheSize t t' call := by
  cases call with
  | put pos data =>
    by_cases hok : 0 < cacheSize ∧ data.utf8ByteSize < cacheSize ∧ pos ∉ t.cache.cacheMap
    · exact h.put hok.2.1 hok.2.2
    · refine ⟨t, put_rejected hok, h, ?_⟩
      simp only [EvictsLeast]
      rw [if_neg]
      · exact List.filter_eq_nil_iff.mpr fun p hp => by simpa using AList.mem_keys.mpr hp
      · rintro ⟨hpos, hdata, -⟩
        exact hok ⟨by omega, hdata, hpos⟩
  | get pos =>
    cases hdata : t.cache.cacheMap.lookup pos with
    | none =>
      refine ⟨t, ?_, h, rfl⟩
      simp only [LRU.step, CacheTrace.step, Cache.get, hdata]
    | some data =>
      obtain ⟨eviction, t', -, hstep, ht', hsame⟩ := h.get hdata
      exact ⟨t', hstep, ht', hsame⟩
  | remove pos =>
    exact ⟨t, remove_missed (hmiss pos rfl), h, fun q hq _ => hq⟩

/-- **Run lemma.** -/
theorem behaves (h : Agrees cacheSize t) {calls : List CacheCall}
    (hmiss : RemovesMiss cacheSize t calls) : Behaves cacheSize t calls := by
  induction calls generalizing t with
  | nil => exact h.coherent
  | cons call calls ih =>
    obtain ⟨t', hstep, ht', hleast⟩ := h.step hmiss.1
    exact ⟨h.coherent, t', hstep, hleast, ih ht' (hmiss.2 t' hstep)⟩

end Agrees

variable {cacheSize : Nat} {t : CacheTrace LRU}

/-- A remove that finds its position leaves it in the list. -/
theorem Coherent.remove {pos : Nat} (h : Coherent cacheSize t) (hpos : pos ∈ t.cache.cacheMap) :
    ∃ t', step cacheSize t (.remove pos) = some t' ∧ ¬ Coherent cacheSize t' := by
  refine ⟨⟨⟨t.cache.cacheMap.erase pos, t.cache.eviction⟩, .removed pos :: t.history⟩, ?_, ?_⟩
  · simp only [step, CacheTrace.step, Cache.remove, if_pos hpos]
    rfl
  · intro h'
    have hmem : pos ∈ t.cache.cacheMap.erase pos := (h'.cached pos).mp ((h.cached pos).mpr hpos)
    exact (AList.mem_erase.mp hmem).1 rfl

theorem Behaves.removesMiss {calls : List CacheCall} (h : Behaves cacheSize t calls) :
    RemovesMiss cacheSize t calls := by
  induction calls generalizing t with
  | nil => trivial
  | cons call calls ih =>
    obtain ⟨hcoherent, t', hstep, -, hrest⟩ := h
    refine ⟨?_, ?_⟩
    · intro pos hcall hpos
      subst hcall
      obtain ⟨t'', hstep', hnot⟩ := hcoherent.remove hpos
      rw [hstep] at hstep'
      cases hstep'
      cases calls with
      | nil => exact hnot hrest
      | cons _ _ => exact hnot hrest.1
    · intro t'' hstep'
      rw [hstep] at hstep'
      cases hstep'
      exact ih hrest

end LRU

/-- **LRU coherence**: a sequence of calls of a new cache keeps it coherent, and evicts the position
    used least recently whenever it evicts, exactly when none of its removes finds its position in
    the cache. -/
theorem lru_coherent_iff (cacheSize : Nat) (calls : List CacheCall) :
    LRU.Behaves cacheSize (LRU.start cacheSize) calls ↔
      LRU.RemovesMiss cacheSize (LRU.start cacheSize) calls :=
  ⟨fun h => h.removesMiss, fun h => (LRU.Agrees.start cacheSize).behaves h⟩

/-- After a remove the position is in the list and not in `cache_map`. -/
theorem lru_remove_incoherent : ¬ LRU.Behaves 2 (LRU.start 2) [.put 1 "a", .remove 1] := by
  intro h
  obtain ⟨-, hrest⟩ := h.removesMiss
  exact (hrest _ rfl).1 1 rfl (by decide)

end ZLog
