import Mathlib.Data.List.Basic
import Mathlib.Order.Nat

/-!
# Tilings

A list of tiles laid one behind the other: the first one starts at `lo`, each of the others where
the one before it ends, and the last one ends at `hi`.  A tile is any value with a start and a
length.  Every point of `[lo, hi)` lies in exactly one tile, and that tile is the last one that
starts at or before the point.
-/

namespace Lib

variable {α β : Type}

/-- The tiles `l` fill `[lo, hi)`, in order. -/
inductive Tiles (start len : α → Nat) : Nat → List α → Nat → Prop where
  | nil (lo : Nat) : Tiles start len lo [] lo
  | cons {lo hi : Nat} {a : α} {l : List α} :
      start a = lo → Tiles start len (lo + len a) l hi → Tiles start len lo (a :: l) hi

/-- The point lies in the tile. -/
def InTile (start len : α → Nat) (a : α) (p : Nat) : Prop := start a ≤ p ∧ p < start a + len a

namespace Tiles

variable {start len : α → Nat} {lo hi mid : Nat} {a b : α} {l l₁ l₂ : List α}

theorem le (h : Tiles start len lo l hi) : lo ≤ hi := by
  induction h with
  | nil => exact Nat.le_refl _
  | cons _ _ ih => exact Nat.le_trans (Nat.le_add_right _ _) ih

theorem append (h₁ : Tiles start len lo l₁ mid) (h₂ : Tiles start len mid l₂ hi) :
    Tiles start len lo (l₁ ++ l₂) hi := by
  induction h₁ with
  | nil => exact h₂
  | cons hs _ ih => exact .cons hs (ih h₂)

theorem append_iff :
    Tiles start len lo (l₁ ++ l₂) hi ↔
      ∃ mid, Tiles start len lo l₁ mid ∧ Tiles start len mid l₂ hi := by
  constructor
  · intro h
    induction l₁ generalizing lo with
    | nil => exact ⟨lo, .nil lo, h⟩
    | cons a l₁ ih =>
      cases h with
      | cons hs ht =>
        obtain ⟨mid, h₁, h₂⟩ := ih ht
        exact ⟨mid, .cons hs h₁, h₂⟩
  · rintro ⟨mid, h₁, h₂⟩
    exact h₁.append h₂

theorem eq_of_nil (h : Tiles start len lo [] hi) : lo = hi := by
  cases h
  rfl

theorem singleton_iff : Tiles start len lo [a] hi ↔ start a = lo ∧ lo + len a = hi := by
  constructor
  · intro h
    cases h with
    | cons hs ht =>
      cases ht
      exact ⟨hs, rfl⟩
  · rintro ⟨hs, rfl⟩
    exact .cons hs (.nil _)

/-- Every tile lies between the ends. -/
theorem bounds (h : Tiles start len lo l hi) (ha : a ∈ l) :
    lo ≤ start a ∧ start a + len a ≤ hi := by
  induction h with
  | nil => cases ha
  | @cons lo hi b l hs ht ih =>
    rcases List.mem_cons.mp ha with rfl | ha
    · rw [hs]
      exact ⟨Nat.le_refl _, ht.le⟩
    · have hb := ih ha
      exact ⟨Nat.le_trans (Nat.le_add_right _ _) hb.1, hb.2⟩

/-- A tile ends before the ones behind it start. -/
theorem pairwise (h : Tiles start len lo l hi) :
    l.Pairwise (fun a b => start a + len a ≤ start b) := by
  induction h with
  | nil => exact List.Pairwise.nil
  | cons hs ht ih =>
    refine List.pairwise_cons.mpr ⟨?_, ih⟩
    intro b hb
    rw [hs]
    exact (ht.bounds hb).1

/-- **Covering**: every point lies in a tile. -/
theorem covers (h : Tiles start len lo l hi) {p : Nat} (hlo : lo ≤ p) (hhi : p < hi) :
    ∃ a ∈ l, InTile start len a p := by
  induction h with
  | nil => omega
  | @cons lo hi b l hs ht ih =>
    by_cases hp : p < lo + len b
    · exact ⟨b, List.mem_cons_self .., by rw [hs]; exact hlo, by rw [hs]; exact hp⟩
    · obtain ⟨a, ha, hin⟩ := ih (by omega) hhi
      exact ⟨a, List.mem_cons_of_mem _ ha, hin⟩

/-- **No overlap**: a point lies in one tile only. -/
theorem unique (h : Tiles start len lo l hi) {p : Nat} (ha : a ∈ l) (hb : b ∈ l)
    (hpa : InTile start len a p) (hpb : InTile start len b p) : a = b := by
  induction h with
  | nil => cases ha
  | @cons lo hi c l hs ht ih =>
    have hpast : ∀ d ∈ l, InTile start len d p → InTile start len c p → False := by
      intro d hd hpd hpc
      have hle := (ht.bounds hd).1
      have h₁ := hpd.1
      have h₂ := hpc.2
      omega
    rcases List.mem_cons.mp ha with rfl | ha' <;> rcases List.mem_cons.mp hb with rfl | hb'
    · rfl
    · exact (hpast b hb' hpb hpa).elim
    · exact (hpast a ha' hpa hpb).elim
    · exact ih ha' hb'

/-- The last tile that starts at or before a point of the tiling holds it. -/
theorem floor_inTile (h : Tiles start len lo l hi) {p : Nat} (hlo : lo ≤ p) (hhi : p < hi) :
    ∃ a, (l.filter (fun a => start a ≤ p)).getLast? = some a ∧ a ∈ l ∧ InTile start len a p := by
  obtain ⟨a, ha, hin⟩ := h.covers hlo hhi
  refine ⟨a, ?_, ha, hin⟩
  obtain ⟨l₁, l₂, rfl⟩ := List.append_of_mem ha
  have hpair := List.pairwise_append.mp h.pairwise
  -- the tiles behind it start past the point
  have hrest : l₂.filter (fun b => start b ≤ p) = [] := by
    rw [List.filter_eq_nil_iff]
    intro b hb
    have hle := (List.pairwise_cons.mp hpair.2.1).1 b hb
    have hlt := hin.2
    simp only [decide_eq_true_eq]
    omega
  rw [List.filter_append, List.filter_cons_of_pos (by simpa using hin.1), hrest]
  simp

/-- Past the end, the last tile is the one. -/
theorem floor_getLast (h : Tiles start len lo l hi) {p : Nat} (hhi : hi ≤ p) :
    (l.filter (fun a => start a ≤ p)).getLast? = l.getLast? := by
  have hall : l.filter (fun a => start a ≤ p) = l := by
    rw [List.filter_eq_self]
    intro a ha
    have hb := (h.bounds ha).2
    simp only [decide_eq_true_eq]
    omega
  rw [hall]

/-- The end of the last tile. -/
theorem getLast_end (h : Tiles start len lo l hi) (hl : l.getLast? = some a) :
    start a + len a = hi := by
  obtain ⟨l', rfl⟩ := List.getLast?_eq_some_iff.mp hl
  obtain ⟨mid, -, hlast⟩ := append_iff.mp h
  obtain ⟨hs, hend⟩ := singleton_iff.mp hlast
  rw [hs, hend]

/-- A tile starts where the one before it ends. -/
theorem getElem?_succ (h : Tiles start len lo l hi) {i : Nat} (ha : l[i]? = some a)
    (hb : l[i + 1]? = some b) : start b = start a + len a := by
  induction h generalizing i with
  | nil => cases ha
  | @cons lo hi c l hs ht ih =>
    cases i with
    | zero =>
      cases ha
      cases ht with
      | nil => cases hb
      | cons hs' _ =>
        cases hb
        rw [hs', hs]
    | succ i => exact ih ha hb

/-- Tiles of length one start at their index. -/
theorem start_of_units (h : Tiles start (fun _ => 1) lo l hi) {i : Nat} (ha : l[i]? = some a) :
    start a = lo + i := by
  induction h generalizing i with
  | nil => cases ha
  | @cons lo hi c l hs ht ih =>
    cases i with
    | zero =>
      cases ha
      exact hs
    | succ i =>
      rw [ih ha]
      omega

theorem length_of_units (h : Tiles start (fun _ => 1) lo l hi) : lo + l.length = hi := by
  induction h with
  | nil => rfl
  | cons _ _ ih =>
    rw [List.length_cons, ← ih]
    omega

/-- A tiling seen through a function. -/
theorem map {start' len' : β → Nat} {f : α → β} (h : Tiles start len lo l hi)
    (hs : ∀ a ∈ l, start' (f a) = start a) (hl : ∀ a ∈ l, len' (f a) = len a) :
    Tiles start' len' lo (l.map f) hi := by
  induction h with
  | nil => exact .nil _
  | @cons lo hi b l hb ht ih =>
    rw [List.map_cons]
    refine .cons ((hs b (List.mem_cons_self ..)).trans hb) ?_
    rw [hl b (List.mem_cons_self ..)]
    exact ih (fun a ha => hs a (List.mem_cons_of_mem _ ha))
      (fun a ha => hl a (List.mem_cons_of_mem _ ha))

/-- Tiles of one length, numbered from 0. -/
theorem uniform (base size : Nat) (n : Nat) :
    Tiles (fun i => base + i * size) (fun _ => size) base (List.range n) (base + n * size) := by
  induction n with
  | zero =>
    rw [Nat.zero_mul]
    exact .nil _
  | succ n ih =>
    rw [List.range_succ, Nat.succ_mul, ← Nat.add_assoc]
    exact ih.append (singleton_iff.mpr ⟨rfl, rfl⟩)

/-- Every tile replaced by a tiling of it. -/
theorem flatMap {start' len' : β → Nat} {f : α → List β} (h : Tiles start len lo l hi)
    (hf : ∀ a ∈ l, Tiles start' len' (start a) (f a) (start a + len a)) :
    Tiles start' len' lo (l.flatMap f) hi := by
  induction h with
  | nil => exact .nil _
  | @cons lo hi b l hb ht ih =>
    rw [List.flatMap_cons]
    have hfirst := hf b (List.mem_cons_self ..)
    rw [hb] at hfirst
    exact hfirst.append (ih fun a ha => hf a (List.mem_cons_of_mem _ ha))

end Tiles

end Lib
