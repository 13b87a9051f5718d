import ZLog.Lib.IndexedList

/-!
# The cache of log entries

A cache holds the data of log positions in `cache_map`, and leaves it to an eviction policy which
position goes when a new one comes.  The policy is told of every hit and of every position that is
put; it removes evicted positions from `cache_map` itself.

## Main results

- `CacheEvent.latest`, `CacheEvent.age`: what the history of a cache says about a position.
- `CacheMap.lost_erase`, `CacheMap.lost_same`: the positions that an eviction removes.
-/

namespace ZLog

abbrev CacheMap := AList (fun _ : Nat => String)

/-- `Eviction`, as far as the cache calls it; `none` where the behaviour is undefined. -/
structure Eviction (σ : Type) where
  cacheGetHit : σ → Nat → Option σ
  cachePutMiss : σ → CacheMap → Nat → Option (σ × CacheMap)

structure Cache (σ : Type) where
  cacheMap : CacheMap
  eviction : σ

namespace Cache

variable {σ : Type}

/-- `put` returns 0, or -1 when it does not take the data. -/
def put (policy : Eviction σ) (cacheSize : Nat) (c : Cache σ) (pos : Nat) (data : String) :
    Option (Cache σ × Int) :=
  if 0 < cacheSize ∧ data.utf8ByteSize < cacheSize ∧ pos ∉ c.cacheMap then
    match policy.cachePutMiss c.eviction c.cacheMap pos with
    | none => none
    | some (eviction, cacheMap) => some (⟨cacheMap.insert pos data, eviction⟩, 0)
  else some (c, -1)

/-- The data of a hit, where `get` returns 0; `none` for a miss, where it returns 1. -/
def get (policy : Eviction σ) (c : Cache σ) (pos : Nat) : Option (Cache σ × Option String) :=
  match c.cacheMap.lookup pos with
  | some data =>
    match policy.cacheGetHit c.eviction pos with
    | none => none
    | some eviction => some (⟨c.cacheMap, eviction⟩, some data)
  | none => some (c, none)

/-- `remove` does not tell the policy. -/
def remove (c : Cache σ) (pos : Nat) : Cache σ × Int :=
  if pos ∈ c.cacheMap then (⟨c.cacheMap.erase pos, c.eviction⟩, 0) else (c, 1)

end Cache

inductive CacheCall where
  | put (pos : Nat) (data : String)
  | get (pos : Nat)
  | remove (pos : Nat)
  deriving DecidableEq

/-- The cache after a call; `none` where the behaviour is undefined. -/
def Cache.call {σ : Type} (policy : Eviction σ) (cacheSize : Nat) (c : Cache σ) :
    CacheCall → Option (Cache σ)
  | .put pos data => (c.put policy cacheSize pos data).map Prod.fst
  | .get pos => (c.get policy pos).map Prod.fst
  | .remove pos => some (c.remove pos).1

/-! ## Histories -/

/-- What happens to a position. -/
inductive CacheEvent where
  | put (pos : Nat) (data : String)
  | got (pos : Nat)
  | evicted (pos : Nat)
  | removed (pos : Nat)
  deriving DecidableEq

/-- The position that was put or got. -/
def CacheEvent.used? : CacheEvent → Option Nat
  | .put pos _ => some pos
  | .got pos => some pos
  | _ => none

/-- A cache with its history, the newest event first. -/
structure CacheTrace (σ : Type) where
  cache : Cache σ
  history : List CacheEvent

namespace CacheEvent

/-- The data of the latest put of a position that was neither evicted nor removed since. -/
def latest : List CacheEvent → Nat → Option String
  | [], _ => none
  | .put p data :: history, pos => if p = pos then some data else latest history pos
  | .got _ :: history, pos => latest history pos
  | .evicted p :: history, pos => if p = pos then none else latest history pos
  | .removed p :: history, pos => if p = pos then none else latest history pos

/-- How many events ago a position was last put or got. -/
def age (history : List CacheEvent) (pos : Nat) : Nat :=
  history.findIdx (fun e => e.used? = some pos)

end CacheEvent

/-- The positions that were in the first map and are not in the second. -/
def CacheMap.lost (m m' : CacheMap) : List Nat := m.keys.filter (fun pos => pos ∉ m')

namespace CacheTrace

variable {σ : Type}

/-- One call.  What an accepted put removes has been evicted. -/
def step (policy : Eviction σ) (cacheSize : Nat) (t : CacheTrace σ) :
    CacheCall → Option (CacheTrace σ)
  | .put pos data =>
    match t.cache.put policy cacheSize pos data with
    | none => none
    | some (c, ret) =>
      if ret = 0 then
        some ⟨c, .put pos data :: (t.cache.cacheMap.lost c.cacheMap).map .evicted ++ t.history⟩
      else some ⟨c, t.history⟩
  | .get pos =>
    match t.cache.get policy pos with
    | none => none
    | some (c, some _) => some ⟨c, .got pos :: t.history⟩
    | some (c, none) => some ⟨c, t.history⟩
  | .remove pos =>
    match t.cache.remove pos with
    | (c, ret) => some ⟨c, if ret = 0 then .removed pos :: t.history else t.history⟩

end CacheTrace

/-! ## What the history says -/

namespace CacheEvent

variable {history : List CacheEvent} {pos : Nat}

theorem age_cons (e : CacheEvent) :
    age (e :: history) pos = if e.used? = some pos then 0 else age history pos + 1 := by
  unfold age
  rw [List.findIdx_cons]
  by_cases h : e.used? = some pos <;> simp [h]

/-- Evictions make every position older. -/
theorem age_evicted (ps : List Nat) :
    age (ps.map CacheEvent.evicted ++ history) pos = ps.length + age history pos := by
  induction ps with
  | nil => simp
  | cons p ps ih =>
    rw [List.map_cons, List.cons_append, age_cons, if_neg (by simp [CacheEvent.used?]), ih,
      List.length_cons]
    omega

theorem latest_evicted (ps : List Nat) :
    latest (ps.map CacheEvent.evicted ++ history) pos =
      if pos ∈ ps then none else latest history pos := by
  induction ps with
  | nil => simp
  | cons p ps ih =>
    show (if p = pos then none else latest (ps.map CacheEvent.evicted ++ history) pos) = _
    rw [ih]
    by_cases hp : p = pos
    · simp [hp]
    · simp [hp, Ne.symm hp]

end CacheEvent

namespace CacheMap

variable {pos q : Nat}

theorem lost_same (m : CacheMap) (data : String) : m.lost (m.insert pos data) = [] := by
  apply List.filter_eq_nil_iff.mpr
  intro p hp hnot
  simp only [AList.mem_insert, not_or, decide_eq_true_eq] at hnot
  exact hnot.2 (AList.mem_keys.mpr hp)

/-- Evicting one position to put another one. -/
theorem lost_erase {m : CacheMap} (hq : q ∈ m) (hpos : pos ∉ m) (data : String) :
    m.lost ((m.erase q).insert pos data) = [q] := by
  apply List.perm_singleton.mp
  apply (List.perm_ext_iff_of_nodup (m.keys_nodup.filter _) (List.nodup_singleton q)).mpr
  intro p
  simp only [List.mem_filter, AList.mem_insert, AList.mem_erase, not_or, not_and,
    decide_eq_true_eq, List.mem_singleton]
  constructor
  · rintro ⟨hp, -, hne⟩
    by_contra hpq
    exact hne hpq (AList.mem_keys.mpr hp)
  · intro heq
    subst heq
    refine ⟨AList.mem_keys.mp hq, ?_, fun hne => absurd rfl hne⟩
    intro heq
    rw [heq] at hq
    exact hpos hq

end CacheMap

end ZLog
