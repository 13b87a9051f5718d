import Mathlib.Data.List.AList
import Mathlib.Data.List.Nodup

/-!
# Linked lists with an index

A linked list of keys, and a hash map from the keys to the nodes of the list.  A node is known by
its address, which it keeps when it is spliced into another list; addresses are handed out by a
counter.

## Main results

- `Distinct.cons`, `Distinct.perm`: the nodes of several lists stay distinct.
- `Indexed.pushFront`, `Indexed.popBack`, `Indexed.take`: the index follows the list.
-/

namespace Lib

/-- A node of the list: its address and its key. -/
structure ListNode (κ : Type) where
  addr : Nat
  key : κ
  deriving DecidableEq

/-- Nodes with distinct keys and addresses; the addresses from `next` on are free. -/
structure Distinct {κ : Type} (nodes : List (ListNode κ)) (next : Nat) : Prop where
  keys : (nodes.map ListNode.key).Nodup
  addrs : (nodes.map ListNode.addr).Nodup
  lt : ∀ n ∈ nodes, n.addr < next

namespace Distinct

variable {κ : Type} {nodes nodes' : List (ListNode κ)} {next : Nat}

/-- Nothing in the list. -/
theorem nil (next : Nat) : Distinct ([] : List (ListNode κ)) next :=
  ⟨List.nodup_nil, List.nodup_nil, fun _ h => by cases h⟩

/-- The order does not matter. -/
theorem perm (h : Distinct nodes next) (hp : nodes.Perm nodes') : Distinct nodes' next :=
  ⟨(hp.map _).nodup h.keys, (hp.map _).nodup h.addrs, fun n hn => h.lt n (hp.mem_iff.mpr hn)⟩

/-- Fewer nodes are still distinct. -/
theorem sublist (h : Distinct nodes next) (hs : nodes'.Sublist nodes) : Distinct nodes' next :=
  ⟨h.keys.sublist (hs.map _), h.addrs.sublist (hs.map _), fun n hn => h.lt n (hs.subset hn)⟩

/-- The first part of a list. -/
theorem append_left {rest : List (ListNode κ)} (h : Distinct (nodes ++ rest) next) :
    Distinct nodes next :=
  h.sublist (List.sublist_append_left ..)

/-- The second part of a list. -/
theorem append_right {rest : List (ListNode κ)} (h : Distinct (rest ++ nodes) next) :
    Distinct nodes next :=
  h.sublist (List.sublist_append_right ..)

/-- The keys that are left without a node. -/
theorem mem_rest (h : Distinct nodes next) {n : ListNode κ} (hp : nodes.Perm (n :: nodes')) {k : κ} :
    k ∈ nodes'.map ListNode.key ↔ k ∈ nodes.map ListNode.key ∧ k ≠ n.key := by
  have hnodup : (n.key :: nodes'.map ListNode.key).Nodup := (hp.map ListNode.key).nodup h.keys
  rw [(hp.map ListNode.key).mem_iff, List.map_cons, List.mem_cons]
  constructor
  · intro hk
    exact ⟨Or.inr hk, fun heq => (List.nodup_cons.mp hnodup).1 (heq ▸ hk)⟩
  · rintro ⟨heq | hk, hne⟩
    · exact absurd heq hne
    · exact hk

/-- A new node. -/
theorem cons (h : Distinct nodes next) {k : κ} (hk : k ∉ nodes.map ListNode.key) :
    Distinct (⟨next, k⟩ :: nodes) (next + 1) := by
  refine ⟨List.nodup_cons.mpr ⟨hk, h.keys⟩, List.nodup_cons.mpr ⟨?_, h.addrs⟩, ?_⟩
  · intro hmem
    obtain ⟨n, hn, heq⟩ := List.mem_map.mp hmem
    have hlt := h.lt n hn
    rw [heq] at hlt
    exact lt_irrefl _ hlt
  · intro n hn
    rcases List.mem_cons.mp hn with heq | hn
    · rw [heq]
      exact Nat.lt_succ_self next
    · exact Nat.lt_succ_of_lt (h.lt n hn)

end Distinct

/-- Takes the node at an address out of a list. -/
def cut {κ : Type} (l : List (ListNode κ)) (addr : Nat) :
    Option (ListNode κ × List (ListNode κ)) :=
  match l.find? (fun n => n.addr = addr) with
  | none => none
  | some n => some (n, l.eraseP (fun n => n.addr = addr))

/-- The node that is found is the one that is taken out. -/
theorem cut_of_mem {κ : Type} {l : List (ListNode κ)} (haddrs : (l.map ListNode.addr).Nodup)
    {n : ListNode κ} (hn : n ∈ l) :
    ∃ l₁ l₂, l = l₁ ++ n :: l₂ ∧ cut l n.addr = some (n, l₁ ++ l₂) := by
  obtain ⟨l₁, l₂, hl⟩ := List.append_of_mem hn
  refine ⟨l₁, l₂, hl, ?_⟩
  -- the nodes before it are at other addresses
  have hnot : ∀ x ∈ l₁, ¬ decide (x.addr = n.addr) = true := by
    intro x hx heq
    rw [hl, List.map_append] at haddrs
    exact (List.nodup_append.mp haddrs).2.2 x.addr (List.mem_map_of_mem hx) n.addr
      (List.mem_cons_self ..) (of_decide_eq_true heq)
  have hfind : l.find? (fun x => x.addr = n.addr) = some n := by
    rw [hl, List.find?_append, List.find?_eq_none.mpr hnot]
    simp
  have herase : l.eraseP (fun x => x.addr = n.addr) = l₁ ++ l₂ := by
    rw [hl, List.eraseP_append_right _ hnot]
    simp
  unfold cut
  rw [hfind, herase]

/-- A list with its index. -/
structure IndexedList (κ : Type) where
  list : List (ListNode κ)
  hashMap : AList (fun _ : κ => Nat)

namespace IndexedList

variable {κ : Type} [DecidableEq κ]

/-- No nodes. -/
def empty : IndexedList κ := ⟨[], ∅⟩

/-- The keys in the order of the list. -/
def keys (q : IndexedList κ) : List κ := q.list.map ListNode.key

/-- `hash_map.size()` -/
def size (q : IndexedList κ) : Nat := q.hashMap.keys.length

/-- `list.push_front(k); hash_map[k] = list.begin()`, with the address of the new node. -/
def pushFront (q : IndexedList κ) (addr : Nat) (k : κ) : IndexedList κ :=
  ⟨⟨addr, k⟩ :: q.list, q.hashMap.insert k addr⟩

/-- `r = list.back(); hash_map.erase(r); list.pop_back()`; undefined on an empty list. -/
def popBack (q : IndexedList κ) : Option (κ × IndexedList κ) :=
  match q.list.getLast? with
  | none => none
  | some n => some (n.key, ⟨q.list.dropLast, q.hashMap.erase n.key⟩)

/-- `dst.splice(dst.begin(), src, it); dst_hash_map[k] = it; src_hash_map.erase(k)`; undefined when
    the node is not in the first list. -/
def moveTo (src dst : IndexedList κ) (k : κ) (it : Nat) :
    Option (IndexedList κ × IndexedList κ) :=
  match cut src.list it with
  | none => none
  | some (node, rest) =>
    some (⟨rest, src.hashMap.erase k⟩, ⟨node :: dst.list, dst.hashMap.insert k it⟩)

/-- The entries of the index are the nodes of the list. -/
def Indexed (q : IndexedList κ) : Prop :=
  ∀ k addr, q.hashMap.lookup k = some addr ↔ ⟨addr, k⟩ ∈ q.list

variable {q : IndexedList κ} {k : κ} {addr : Nat}

/-- Nothing to index. -/
theorem indexed_empty : (empty : IndexedList κ).Indexed := by
  intro k addr
  simp [empty]

namespace Indexed

/-- The index has the keys of the list. -/
theorem mem_iff (h : q.Indexed) : k ∈ q.hashMap ↔ k ∈ q.keys := by
  unfold keys
  rw [← AList.lookup_isSome, Option.isSome_iff_exists, List.mem_map]
  constructor
  · rintro ⟨addr, haddr⟩
    exact ⟨⟨addr, k⟩, (h k addr).mp haddr, rfl⟩
  · rintro ⟨⟨addr, k'⟩, hn, rfl⟩
    exact ⟨addr, (h k' addr).mpr hn⟩

/-- The index has as many keys as the list has nodes. -/
theorem size_eq (h : q.Indexed) (hkeys : q.keys.Nodup) : q.size = q.list.length := by
  have hperm : q.hashMap.keys.Perm q.keys := by
    apply (List.perm_ext_iff_of_nodup q.hashMap.keys_nodup hkeys).mpr
    intro k
    exact h.mem_iff
  unfold size
  rw [hperm.length_eq]
  exact List.length_map ..

/-- Only the nodes matter, not their order. -/
theorem perm (h : q.Indexed) {l : List (ListNode κ)} (hp : q.list.Perm l) :
    (⟨l, q.hashMap⟩ : IndexedList κ).Indexed := by
  intro k addr
  exact (h k addr).trans hp.mem_iff

/-- A new key is indexed with the node in front. -/
theorem pushFront (h : q.Indexed) (hk : k ∉ q.keys) (addr : Nat) :
    (q.pushFront addr k).Indexed := by
  intro k' addr'
  show (q.hashMap.insert k addr).lookup k' = some addr' ↔ ⟨addr', k'⟩ ∈ ⟨addr, k⟩ :: q.list
  rw [List.mem_cons]
  -- the new key, or one that was there
  by_cases heq : k' = k
  · subst heq
    rw [AList.lookup_insert]
    constructor
    · intro ha
      cases ha
      exact Or.inl rfl
    · rintro (hn | hn)
      · cases hn
        rfl
      · exact absurd (List.mem_map_of_mem (f := ListNode.key) hn) hk
  · rw [AList.lookup_insert_ne heq, h k' addr']
    constructor
    · exact Or.inr
    · rintro (hn | hn)
      · cases hn
        exact absurd rfl heq
      · exact hn

/-- A node leaves the list, and its key the index. -/
theorem remove (h : q.Indexed) (hkeys : q.keys.Nodup) {n : ListNode κ} {l : List (ListNode κ)}
    (hp : q.list.Perm (n :: l)) : (⟨l, q.hashMap.erase n.key⟩ : IndexedList κ).Indexed := by
  have hnodup : (n.key :: l.map ListNode.key).Nodup := (hp.map ListNode.key).nodup hkeys
  intro k addr
  show (q.hashMap.erase n.key).lookup k = some addr ↔ ⟨addr, k⟩ ∈ l
  -- its key is gone: no other node had it
  by_cases heq : k = n.key
  · subst heq
    rw [AList.lookup_erase]
    constructor
    · intro ha
      cases ha
    · intro hn
      exact absurd (List.mem_map_of_mem (f := ListNode.key) hn) (List.nodup_cons.mp hnodup).1
  · rw [AList.lookup_erase_ne heq, h k addr, hp.mem_iff, List.mem_cons]
    constructor
    · rintro (hn | hn)
      · rw [← hn] at heq
        exact absurd rfl heq
      · exact hn
    · exact Or.inr

/-- `back()` and `pop_back()` of a list that is not empty. -/
theorem popBack (h : q.Indexed) (hkeys : q.keys.Nodup) (hne : q.list ≠ []) :
    ∃ n q', q.popBack = some (n.key, q') ∧ q.list = q'.list ++ [n] ∧ q'.Indexed := by
  rcases List.eq_nil_or_concat q.list with hnil | ⟨l, n, hl⟩
  · exact absurd hnil hne
  · rw [List.concat_eq_append] at hl
    refine ⟨n, ⟨l, q.hashMap.erase n.key⟩, ?_, hl, ?_⟩
    · unfold IndexedList.popBack
      rw [hl, List.getLast?_concat, List.dropLast_concat]
    · apply h.remove hkeys
      rw [hl]
      exact List.perm_append_singleton n l

/-- A node of another list moves to the front. -/
theorem receive (h : q.Indexed) {n : ListNode κ} (hk : n.key ∉ q.keys) :
    (⟨n :: q.list, q.hashMap.insert n.key n.addr⟩ : IndexedList κ).Indexed :=
  h.pushFront hk n.addr

/-- The node of a key, found through the index. -/
theorem take (h : q.Indexed) (haddrs : (q.list.map ListNode.addr).Nodup) (hk : k ∈ q.hashMap) :
    ∃ n l₁ l₂, n.key = k ∧ q.hashMap.lookup k = some n.addr ∧ q.list = l₁ ++ n :: l₂ ∧
      cut q.list n.addr = some (n, l₁ ++ l₂) := by
  obtain ⟨addr, haddr⟩ := Option.isSome_iff_exists.mp (AList.lookup_isSome.mpr hk)
  obtain ⟨l₁, l₂, hl, hcut⟩ := cut_of_mem haddrs ((h k addr).mp haddr)
  exact ⟨⟨addr, k⟩, l₁, l₂, rfl, haddr, hl, hcut⟩

/-- A node moves to the front of another list. -/
theorem moveTo (h : q.Indexed) {dst : IndexedList κ} (hdst : dst.Indexed)
    (hkeys : q.keys.Nodup) (haddrs : (q.list.map ListNode.addr).Nodup) {it : Nat}
    (hit : q.hashMap.lookup k = some it) (hk : k ∉ dst.keys) :
    ∃ n q' dst', q.moveTo dst k it = some (q', dst') ∧ n.key = k ∧
      q.list.Perm (n :: q'.list) ∧ dst'.list = n :: dst.list ∧ q'.Indexed ∧ dst'.Indexed := by
  have hmem : k ∈ q.hashMap := by
    rw [← AList.lookup_isSome, hit]
    rfl
  obtain ⟨n, l₁, l₂, hn, hlookup, hl, hcut⟩ := h.take haddrs hmem
  rw [hit] at hlookup
  -- the lookup gives the address of the only node with this key
  cases hlookup
  have hperm : q.list.Perm (n :: (l₁ ++ l₂)) := by
    rw [hl]
    exact List.perm_middle
  refine ⟨n, ⟨l₁ ++ l₂, q.hashMap.erase k⟩, ⟨n :: dst.list, dst.hashMap.insert k n.addr⟩, ?_, hn,
    hperm, rfl, ?_, ?_⟩
  · unfold IndexedList.moveTo
    rw [hcut]
  · rw [← hn]
    exact h.remove hkeys hperm
  · rw [← hn] at hk ⊢
    exact hdst.receive hk

end Indexed

end IndexedList

end Lib
