import Mathlib.Data.List.Perm.Basic
import Mathlib.Data.List.Range

/-!
# Tickets

Tickets are handed out in order, each to one holder, and a holder uses its ticket once.  When
nobody holds one any more, the tickets used so far are the first ones, without a gap.

## Main results

- `Tickets.draw`, `Tickets.use`: the two things that happen to a ticket.
- `Tickets.used_all`: without holders nothing is missing.
-/

namespace Lib

/-- The tickets below `n` have been drawn, each once: those of `held` are out, and those of `used`
    have been used. -/
def Tickets (held used : List Nat) (n : Nat) : Prop := (used ++ held).Perm (List.range n)

namespace Tickets

variable {held held' used used' : List Nat} {n p : Nat}

theorem none_drawn : Tickets [] [] 0 := List.Perm.refl _

theorem congr (h : Tickets held used n) (hh : held'.Perm held) (hu : used'.Perm used) :
    Tickets held' used' n :=
  (hu.append hh).trans h

/-- The next ticket is handed out. -/
theorem draw (h : Tickets held used n) : Tickets (n :: held) used (n + 1) := by
  unfold Tickets
  rw [List.range_succ]
  have hout : (used ++ n :: held).Perm (n :: (used ++ held)) := List.perm_middle
  have hlast : (n :: List.range n).Perm (List.range n ++ [n]) :=
    (List.perm_append_singleton n (List.range n)).symm
  exact hout.trans ((h.cons n).trans hlast)

/-- A ticket is used. -/
theorem use (h : Tickets (p :: held) used n) : Tickets held (p :: used) n :=
  List.perm_middle.symm.trans h

theorem nodup (h : Tickets held used n) : (used ++ held).Nodup :=
  h.nodup_iff.mpr List.nodup_range

/-- A ticket that is out has not been used. -/
theorem not_used (h : Tickets held used n) (hp : p ∈ held) : p ∉ used := by
  intro hu
  exact (List.nodup_append.mp h.nodup).2.2 p hu p hp rfl

theorem lt (h : Tickets held used n) (hp : p ∈ used ∨ p ∈ held) : p < n := by
  apply List.mem_range.mp
  exact h.mem_iff.mp (List.mem_append.mpr hp)

/-- Every ticket is used or out. -/
theorem length (h : Tickets held used n) : used.length + held.length = n := by
  have hl := List.Perm.length_eq h
  rwa [List.length_append, List.length_range] at hl

/-- Without holders, the number of tickets drawn is the number of those used. -/
theorem length_used (h : Tickets [] used n) : used.length = n := by
  have hl := h.length
  rwa [List.length_nil, Nat.add_zero] at hl

/-- **Without holders nothing is missing.** -/
theorem used_all (h : Tickets [] used n) : used.Perm (List.range used.length) := by
  rw [h.length_used]
  unfold Tickets at h
  rwa [List.append_nil] at h

end Tickets

/-- Replacing an element of a list: it stands between those before it and those behind it. -/
theorem set_split {α : Type} {l : List α} {i : Nat} {x : α} (h : l[i]? = some x) :
    ∃ before after, l = before ++ x :: after ∧ (∀ y, l.set i y = before ++ y :: after) ∧
      (i + 1 = l.length → after = []) := by
  obtain ⟨hlt, rfl⟩ := List.getElem?_eq_some_iff.mp h
  refine ⟨l.take i, l.drop (i + 1), ?_, ?_, ?_⟩
  · rw [List.getElem_cons_drop, List.take_append_drop]
  · intro y
    rw [List.set_eq_take_append_cons_drop, if_pos hlt]
  · intro hlast
    rw [hlast, List.drop_length]

/-- Replacing an element of a list, up to the order. -/
theorem set_perm {α : Type} {l : List α} {i : Nat} {x : α} (h : l[i]? = some x) :
    ∃ rest, l.Perm (x :: rest) ∧ ∀ y, (l.set i y).Perm (y :: rest) := by
  obtain ⟨before, after, hl, hset, -⟩ := set_split h
  refine ⟨before ++ after, hl ▸ List.perm_middle, ?_⟩
  intro y
  rw [hset y]
  exact List.perm_middle

/-- Something that can only come last comes last. -/
theorem last_split {α : Type} {past before after : List α} {last : Option α} {x : α}
    (h : past ++ last.toList = before ++ x :: after) (hx : x ∉ past) :
    last = some x ∧ before = past ∧ after = [] := by
  have hmem : x ∈ past ++ last.toList := by
    rw [h]
    exact List.mem_append_right _ List.mem_cons_self
  obtain rfl : last = some x := by
    rcases List.mem_append.mp hmem with hmem | hmem
    · exact absurd hmem hx
    · cases last with
      | none => cases hmem
      | some y => rw [List.mem_singleton.mp hmem]
  rcases List.eq_nil_or_concat after with rfl | ⟨rest, y, rfl⟩
  · exact ⟨rfl, (List.append_inj_left' h rfl).symm, rfl⟩
  · -- otherwise it would come before the last
    have hpast : past = before ++ x :: rest := by
      have happ : past ++ [x] = (before ++ x :: rest) ++ [y] := by
        rw [List.append_assoc]
        simpa using h
      exact List.append_inj_left' happ rfl
    rw [hpast] at hx
    exact absurd (List.mem_append_right _ List.mem_cons_self) hx

end Lib
