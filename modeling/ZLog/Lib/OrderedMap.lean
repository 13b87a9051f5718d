import Mathlib.Data.List.Basic
import Mathlib.Data.List.Nodup
import Mathlib.Order.Lattice
import Mathlib.Order.Nat

/-!
# Ordered maps

A finite map kept as a list of bindings with strictly increasing keys: the abstraction of an
ordered associative container with unique keys, under the operations such a container has
(lookup, insertion of a fresh key, deletion, the last binding, and the binding of the greatest
key that is at most a given one).
-/

namespace Lib

/-- A list of bindings in strictly increasing order of keys. -/
structure OrderedMap (κ β : Type) [LinearOrder κ] where
  toList : List (κ × β)
  sorted : toList.Pairwise (fun x y => x.1 < y.1)

namespace OrderedMap

variable {κ β : Type} [LinearOrder κ]

/-- A map is the list of its bindings. -/
@[ext] theorem ext {m n : OrderedMap κ β} (h : m.toList = n.toList) : m = n := by
  cases m; cases n; cases h; rfl

instance [DecidableEq β] : DecidableEq (OrderedMap κ β) := fun m n =>
  decidable_of_iff (m.toList = n.toList) ⟨ext, fun h => h ▸ rfl⟩

/-- The empty map. -/
def empty : OrderedMap κ β := ⟨[], List.Pairwise.nil⟩

/-- The map with one binding. -/
def singleton (k : κ) (v : β) : OrderedMap κ β := ⟨[(k, v)], List.pairwise_singleton _ _⟩

def isEmpty (m : OrderedMap κ β) : Bool := m.toList.isEmpty

/-- The value bound to `k`. -/
def find? (m : OrderedMap κ β) (k : κ) : Option β :=
  (m.toList.find? (fun b => b.1 == k)).map Prod.snd

/-- The binding with the greatest key. -/
def last? (m : OrderedMap κ β) : Option (κ × β) := m.toList.getLast?

/-- The binding with the least key. -/
def first? (m : OrderedMap κ β) : Option (κ × β) := m.toList.head?

/-- The binding with the greatest key that is at most `k`. -/
def floor? (m : OrderedMap κ β) (k : κ) : Option (κ × β) :=
  (m.toList.filter (fun b => b.1 ≤ k)).getLast?

/-- Insertion into a sorted list; a key that is already bound keeps its value. -/
def insertList (k : κ) (v : β) : List (κ × β) → List (κ × β)
  | [] => [(k, v)]
  | b :: bs =>
    if k < b.1 then (k, v) :: b :: bs
    else if k = b.1 then b :: bs
    else b :: insertList k v bs

theorem fst_mem_insertList {k : κ} {v : β} {l : List (κ × β)} {x : κ × β}
    (h : x ∈ insertList k v l) : x = (k, v) ∨ x ∈ l := by
  induction l with
  | nil => simpa [insertList] using h
  | cons b bs ih =>
    simp only [insertList] at h
    split at h
    · simpa using h
    · split at h
      · exact Or.inr h
      · rcases List.mem_cons.mp h with rfl | h
        · exact Or.inr (List.mem_cons_self ..)
        · rcases ih h with h | h
          · exact Or.inl h
          · exact Or.inr (List.mem_cons_of_mem _ h)

/-- Inserting keeps the keys in order. -/
theorem sorted_insertList (k : κ) (v : β) {l : List (κ × β)}
    (h : l.Pairwise (fun x y => x.1 < y.1)) :
    (insertList k v l).Pairwise (fun x y => x.1 < y.1) := by
  induction l with
  | nil => exact List.pairwise_singleton _ _
  | cons b bs ih =>
    have hb := List.pairwise_cons.mp h
    simp only [insertList]
    split
    · next hlt =>
      refine List.pairwise_cons.mpr ⟨fun x hx => ?_, h⟩
      rcases List.mem_cons.mp hx with rfl | hx
      · exact hlt
      · exact lt_trans hlt (hb.1 x hx)
    · next hge =>
      split
      · exact h
      · next hne =>
        refine List.pairwise_cons.mpr ⟨fun x hx => ?_, ih hb.2⟩
        rcases fst_mem_insertList hx with rfl | hx
        · exact lt_of_le_of_ne (not_lt.mp hge) (Ne.symm hne)
        · exact hb.1 x hx

/-- A key past the last one goes to the end. -/
theorem insertList_of_lt {k : κ} {v : β} {l : List (κ × β)} (h : ∀ x ∈ l, x.1 < k) :
    insertList k v l = l ++ [(k, v)] := by
  induction l with
  | nil => rfl
  | cons b bs ih =>
    have hb : b.1 < k := h b (List.mem_cons_self ..)
    have hbs : insertList k v bs = bs ++ [(k, v)] :=
      ih (fun x hx => h x (List.mem_cons_of_mem _ hx))
    simp [insertList, not_lt_of_gt hb, ne_of_gt hb, hbs]

/-- Binds `k` to `v` unless `k` is bound already. -/
def emplace (m : OrderedMap κ β) (k : κ) (v : β) : OrderedMap κ β :=
  ⟨insertList k v m.toList, sorted_insertList k v m.sorted⟩

/-- Removes the binding of `k`. -/
def erase (m : OrderedMap κ β) (k : κ) : OrderedMap κ β :=
  ⟨m.toList.filter (fun b => b.1 ≠ k), m.sorted.filter _⟩

/-- Binds `k` to `v`, in place of its old value if there is one. -/
def set (m : OrderedMap κ β) (k : κ) (v : β) : OrderedMap κ β := (m.erase k).emplace k v

/-- The first binding whose key is past `k`. -/
def next? (m : OrderedMap κ β) (k : κ) : Option (κ × β) := m.toList.find? (fun b => k < b.1)

/-- The successor of a key below the first one. -/
theorem next?_of_cons {m : OrderedMap κ β} {k : κ} {b : κ × β} {bs : List (κ × β)}
    (h : m.toList = b :: bs) (hlt : k < b.1) : m.next? k = some b := by
  simp [next?, h, hlt]

/-- Erasing the least key leaves the rest. -/
theorem toList_erase_of_cons {m : OrderedMap κ β} {b : κ × β} {bs : List (κ × β)}
    (h : m.toList = b :: bs) : (m.erase b.1).toList = bs := by
  have hpast := (List.pairwise_cons.mp (h ▸ m.sorted)).1
  show m.toList.filter _ = bs
  rw [h, List.filter_cons_of_neg (by simp), List.filter_eq_self]
  intro x hx
  simpa using ne_of_gt (hpast x hx)

/-- A key is missing when no binding has it. -/
theorem find?_eq_none {m : OrderedMap κ β} {k : κ} :
    m.find? k = none ↔ ∀ x ∈ m.toList, x.1 ≠ k := by
  simp [find?]

/-- A key is found with the value it is bound to. -/
theorem find?_eq_some {m : OrderedMap κ β} {k : κ} {v : β} :
    m.find? k = some v ↔ (k, v) ∈ m.toList := by
  constructor
  · intro h
    obtain ⟨x, hx, hv⟩ := Option.map_eq_some_iff.mp h
    have hk : x.1 = k := by simpa using List.find?_some hx
    have hmem := List.mem_of_find?_eq_some hx
    rwa [← hk, ← hv]
  · intro h
    cases hf : m.find? k with
    | none => exact absurd rfl (find?_eq_none.mp hf (k, v) h)
    | some v' =>
      obtain ⟨x, hx, hv⟩ := Option.map_eq_some_iff.mp hf
      have hk : x.1 = k := by simpa using List.find?_some hx
      have hmem := List.mem_of_find?_eq_some hx
      -- two bindings of one key in a strictly sorted list are the same binding
      have hnodup : (m.toList.map Prod.fst).Nodup := List.pairwise_map.mpr (m.sorted.imp ne_of_lt)
      have hinj := List.inj_on_of_nodup_map hnodup hmem h hk
      rw [← hv, hinj]

/-- The bindings after a new key was inserted. -/
theorem mem_insertList {k : κ} {v : β} {l : List (κ × β)} (hk : ∀ x ∈ l, x.1 ≠ k) {x : κ × β} :
    x ∈ insertList k v l ↔ x = (k, v) ∨ x ∈ l := by
  induction l with
  | nil => simp [insertList]
  | cons b bs ih =>
    have hb : k ≠ b.1 := Ne.symm (hk b (List.mem_cons_self ..))
    have hrest := ih fun y hy => hk y (List.mem_cons_of_mem _ hy)
    by_cases hlt : k < b.1
    · simp [insertList, hlt]
    · simp only [insertList, hlt, hb, if_false, List.mem_cons, hrest]
      exact ⟨fun h => by tauto, fun h => by tauto⟩

/-- The bindings after a key was set. -/
theorem mem_set {m : OrderedMap κ β} {k : κ} {v : β} {x : κ × β} :
    x ∈ (m.set k v).toList ↔ x = (k, v) ∨ (x ∈ m.toList ∧ x.1 ≠ k) := by
  have hk : ∀ y ∈ (m.erase k).toList, y.1 ≠ k := by
    intro y hy
    simpa using (List.mem_filter.mp hy).2
  rw [set, emplace, mem_insertList hk]
  simp [erase]

/-- Looking up a key after one was set. -/
theorem find?_set (m : OrderedMap κ β) (k k' : κ) (v : β) :
    (m.set k v).find? k' = if k' = k then some v else m.find? k' := by
  apply Option.ext
  intro w
  rw [find?_eq_some, mem_set]
  by_cases hk : k' = k
  · simp [hk, eq_comm]
  · simp [hk, find?_eq_some]

/-- No key is `k` when all of them are below it. -/
theorem find?_of_lt {m : OrderedMap κ β} {k : κ} (h : ∀ x ∈ m.toList, x.1 < k) :
    m.find? k = none := by
  have hnone : m.toList.find? (fun b => b.1 == k) = none :=
    List.find?_eq_none.mpr fun x hx => by simp [ne_of_lt (h x hx)]
  simp [find?, hnone]

@[simp] theorem find?_empty (k : κ) : (empty : OrderedMap κ β).find? k = none := rfl

@[simp] theorem toList_empty : (empty : OrderedMap κ β).toList = [] := rfl

@[simp] theorem toList_singleton (k : κ) (v : β) :
    (singleton k v).toList = [(k, v)] := rfl

/-- A map with one binding. -/
theorem find?_singleton (k k' : κ) (v : β) :
    (singleton k v).find? k' = if k = k' then some v else none := by
  by_cases h : k = k' <;> simp [find?, singleton, h]

/-- The first binding. -/
theorem emplace_empty (k : κ) (v : β) : (empty : OrderedMap κ β).emplace k v = singleton k v :=
  rfl

/-! ## Maps with consecutive keys -/

/-- The values bound to `n`, `n + 1`, and so on. -/
def numbered (n : Nat) : List β → List (Nat × β)
  | [] => []
  | v :: vs => (n, v) :: numbered (n + 1) vs

theorem le_of_mem_numbered {n : Nat} {vs : List β} {b : Nat × β} (h : b ∈ numbered n vs) :
    n ≤ b.1 := by
  induction vs generalizing n with
  | nil => cases h
  | cons v vs ih =>
    rcases List.mem_cons.mp h with rfl | h
    · exact Nat.le_refl _
    · exact Nat.le_of_lt (ih h)

/-- Counting up gives keys in order. -/
theorem sorted_numbered (n : Nat) (vs : List β) :
    (numbered n vs).Pairwise (fun x y => x.1 < y.1) := by
  induction vs generalizing n with
  | nil => exact List.Pairwise.nil
  | cons v vs ih => exact List.pairwise_cons.mpr ⟨fun b hb => le_of_mem_numbered hb, ih (n + 1)⟩

@[simp] theorem numbered_nil (n : Nat) : numbered n ([] : List β) = [] := rfl

@[simp] theorem numbered_cons (n : Nat) (v : β) (vs : List β) :
    numbered n (v :: vs) = (n, v) :: numbered (n + 1) vs := rfl

/-- The keys of the second list go on where those of the first one end. -/
theorem numbered_append (n : Nat) (vs ws : List β) :
    numbered n (vs ++ ws) = numbered n vs ++ numbered (n + vs.length) ws := by
  induction vs generalizing n with
  | nil => simp
  | cons v vs ih => simp [ih, Nat.add_comm, Nat.add_left_comm]

/-- Emplacing the next key extends the values. -/
theorem insertList_numbered (n : Nat) (vs : List β) (v : β) :
    insertList (n + vs.length) v (numbered n vs) = numbered n (vs ++ [v]) := by
  induction vs generalizing n with
  | nil => simp [insertList]
  | cons w vs ih =>
    have hlt : ¬ n + (w :: vs).length < n := by omega
    have hne : n + (w :: vs).length ≠ n := by simp
    have hshift : n + (w :: vs).length = n + 1 + vs.length := by simp; omega
    simp only [numbered_cons, insertList, hlt, hne, if_false, List.cons_append]
    rw [hshift, ih]

/-- The value of key `k` stands `k - n` behind the first one. -/
theorem find?_numbered (n k : Nat) (vs : List β) :
    ((numbered n vs).find? (fun b => b.1 == k)).map Prod.snd =
      if n ≤ k then vs[k - n]? else none := by
  induction vs generalizing n with
  | nil => simp
  | cons v vs ih =>
    rw [numbered_cons]
    by_cases hk : n = k
    · subst hk
      simp
    · have hk' : (n == k) = false := by simpa using hk
      rw [List.find?_cons_of_neg (by simpa using hk'), ih]
      by_cases hle : n ≤ k
      · have hsub : k - n = k - (n + 1) + 1 := by omega
        have hle' : n + 1 ≤ k := by omega
        simp [hle, hle', hsub]
      · have hle' : ¬ n + 1 ≤ k := by omega
        simp [hle, hle']

/-- Skipping to a key drops the values before it. -/
theorem dropWhile_numbered (n k : Nat) (vs : List β) (h : n ≤ k) :
    (numbered n vs).dropWhile (fun b => b.1 ≠ k) = numbered k (vs.drop (k - n)) := by
  induction vs generalizing n with
  | nil => simp
  | cons v vs ih =>
    by_cases hk : n = k
    · subst hk
      simp
    · have hsub : k - n = k - (n + 1) + 1 := by omega
      rw [numbered_cons, List.dropWhile_cons_of_pos (by simpa using hk), ih (n + 1) (by omega),
        hsub]
      rfl

/-- The last binding has the last value and the greatest key. -/
theorem getLast?_numbered (n : Nat) (vs : List β) :
    (numbered n vs).getLast? = vs.getLast?.map (fun v => (n + vs.length - 1, v)) := by
  rcases List.eq_nil_or_concat vs with rfl | ⟨ws, v, rfl⟩
  · rfl
  · rw [List.concat_eq_append, numbered_append]
    simp [Nat.add_assoc]

theorem getElem?_of_mem_numbered {n : Nat} {vs : List β} {b : Nat × β} (h : b ∈ numbered n vs) :
    vs[b.1 - n]? = some b.2 := by
  induction vs generalizing n with
  | nil => cases h
  | cons v vs ih =>
    rcases List.mem_cons.mp h with rfl | h
    · simp
    · have hle := le_of_mem_numbered h
      have hsub : b.1 - n = (b.1 - (n + 1)) + 1 := by omega
      rw [hsub, List.getElem?_cons_succ]
      exact ih h

/-- The keys are an interval. -/
theorem keys_numbered (n : Nat) (vs : List β) :
    (numbered n vs).map Prod.fst = List.range' n vs.length := by
  induction vs generalizing n with
  | nil => rfl
  | cons v vs ih => simp [ih, List.range'_succ]

theorem map_numbered {γ : Type} (n : Nat) (vs : List β) (f : β → γ) :
    (numbered n vs).map (fun kv => f kv.2) = vs.map f := by
  induction vs generalizing n with
  | nil => rfl
  | cons v vs ih => simp [ih]

end OrderedMap

end Lib
