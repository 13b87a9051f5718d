import Mathlib.Data.List.Basic

/-!
# Names made of components joined by dots

`dotted ["a", "b", "c"]` is the name `a.b.c`.  Components that contain no dot can be read back
from the name, so such names are equal only when their components are, and a name begins with
another one followed by a dot only when it has more components.  Decimal numerals are
components.
-/

namespace Lib

/-- The components, separated by dots. -/
def dotted : List String → String
  | [] => ""
  | [s] => s
  | s :: t :: rest => s ++ "." ++ dotted (t :: rest)

/-- The component contains no dot. -/
def DotFree (s : String) : Prop := '.' ∉ s.toList

instance (s : String) : Decidable (DotFree s) := by
  unfold DotFree
  infer_instance

/-- Decimal numbers have no dots. -/
theorem dotFree_repr (n : Nat) : DotFree (toString n) := by
  intro h
  have hd : Char.isDigit '.' = true := by
    refine Nat.isDigit_of_mem_toDigits (b := 10) (n := n) (by omega) (by omega) ?_
    simpa [← Nat.toList_repr] using h
  exact absurd hd (by decide)

/-- A number is read back from its digits. -/
theorem toString_nat_injective {m n : Nat} (h : toString m = toString n) : m = n := by
  have hd : Nat.toDigits 10 m = Nat.toDigits 10 n := by
    simpa [← Nat.toList_repr] using congrArg String.toList h
  have hm := Nat.ofDigitChars_toDigits (b := 10) (n := m) (by omega) (by omega)
  have hn := Nat.ofDigitChars_toDigits (b := 10) (n := n) (by omega) (by omega)
  rw [← hm, ← hn, hd]

/-- The first dot of a string is where its first component ends. -/
theorem dot_split {a b r s : List Char} (ha : '.' ∉ a) (hb : '.' ∉ b)
    (h : a ++ '.' :: r = b ++ '.' :: s) : a = b ∧ r = s := by
  induction a generalizing b with
  | nil =>
    cases b with
    | nil => exact ⟨rfl, (List.cons.inj h).2⟩
    | cons c cs => exact absurd (by simp [← (List.cons.inj h).1]) hb
  | cons c cs ih =>
    cases b with
    | nil => exact absurd (by simp [(List.cons.inj h).1]) ha
    | cons c' cs' =>
      obtain ⟨hc, hcs⟩ := List.cons.inj h
      have ⟨h₁, h₂⟩ := ih (fun hm => ha (List.mem_cons_of_mem _ hm))
        (fun hm => hb (List.mem_cons_of_mem _ hm)) hcs
      exact ⟨by rw [hc, h₁], h₂⟩

theorem toList_dotted_cons (s t : String) (rest : List String) :
    (dotted (s :: t :: rest)).toList = s.toList ++ '.' :: (dotted (t :: rest)).toList := by
  simp [dotted, String.toList_append]

/-- **Components can be read back.** -/
theorem dotted_injective {cs ds : List String} (hcs : ∀ s ∈ cs, DotFree s)
    (hds : ∀ s ∈ ds, DotFree s) (hc : cs ≠ []) (hd : ds ≠ []) (h : dotted cs = dotted ds) :
    cs = ds := by
  induction cs generalizing ds with
  | nil => exact absurd rfl hc
  | cons c cs ih =>
    obtain ⟨d, ds, rfl⟩ := List.exists_cons_of_ne_nil hd
    have hcf := hcs c (List.mem_cons_self ..)
    have hdf := hds d (List.mem_cons_self ..)
    have hl := congrArg String.toList h
    cases cs with
    | nil =>
      cases ds with
      | nil => simpa [dotted] using h
      | cons d' ds =>
        rw [toList_dotted_cons] at hl
        refine absurd ?_ hcf
        show '.' ∈ (dotted [c]).toList
        rw [hl]
        simp
    | cons c' cs =>
      cases ds with
      | nil =>
        rw [toList_dotted_cons] at hl
        refine absurd ?_ hdf
        show '.' ∈ (dotted [d]).toList
        rw [← hl]
        simp
      | cons d' ds =>
        rw [toList_dotted_cons, toList_dotted_cons] at hl
        have ⟨h₁, h₂⟩ := dot_split hcf hdf hl
        have htail := ih (fun s hs => hcs s (List.mem_cons_of_mem _ hs))
          (fun s hs => hds s (List.mem_cons_of_mem _ hs)) (by simp) (by simp)
          (String.toList_inj.mp h₂)
        rw [String.toList_inj.mp h₁, htail]

/-- Names are put together with one more dot. -/
theorem dotted_append {cs ds : List String} (hc : cs ≠ []) (hd : ds ≠ []) :
    dotted (cs ++ ds) = dotted cs ++ "." ++ dotted ds := by
  induction cs with
  | nil => exact absurd rfl hc
  | cons c cs ih =>
    cases cs with
    | nil =>
      obtain ⟨d, ds, rfl⟩ := List.exists_cons_of_ne_nil hd
      rfl
    | cons c' cs =>
      have htail := ih (by simp)
      simp only [List.cons_append, dotted] at htail ⊢
      rw [htail]
      simp [String.append_assoc]

/-- A name that starts with another name and a dot has more components. -/
theorem dotted_prefix {cs ds : List String} (hcs : ∀ s ∈ cs, DotFree s)
    (hds : ∀ s ∈ ds, DotFree s) (hc : cs ≠ [])
    (h : (dotted cs ++ ".").toList <+: (dotted ds).toList) : ∃ d ds', ds = cs ++ d :: ds' := by
  induction cs generalizing ds with
  | nil => exact absurd rfl hc
  | cons c cs ih =>
    have hcf := hcs c (List.mem_cons_self ..)
    obtain ⟨r, hr⟩ := h
    cases ds with
    | nil =>
      cases cs <;> simp [dotted, String.toList_append] at hr
    | cons d ds =>
      have hdf := hds d (List.mem_cons_self ..)
      cases cs with
      | nil =>
        simp only [dotted, String.toList_append] at hr
        cases ds with
        | nil =>
          refine absurd ?_ hdf
          show '.' ∈ (dotted [d]).toList
          rw [← hr]
          simp
        | cons d' ds =>
          rw [toList_dotted_cons] at hr
          have h₁ := (dot_split (r := r) (s := (dotted (d' :: ds)).toList) hcf hdf
            (by simpa using hr)).1
          exact ⟨d', ds, by rw [String.toList_inj.mp h₁]; rfl⟩
      | cons c' cs =>
        rw [String.toList_append, toList_dotted_cons] at hr
        cases ds with
        | nil =>
          refine absurd ?_ hdf
          show '.' ∈ (dotted [d]).toList
          rw [← hr]
          simp
        | cons d' ds =>
          rw [toList_dotted_cons] at hr
          have ⟨h₁, h₂⟩ := dot_split (r := (dotted (c' :: cs)).toList ++ ".".toList ++ r)
            (s := (dotted (d' :: ds)).toList) hcf hdf (by simpa using hr)
          obtain ⟨e, es, he⟩ := ih (fun s hs => hcs s (List.mem_cons_of_mem _ hs))
            (fun s hs => hds s (List.mem_cons_of_mem _ hs)) (by simp)
            ⟨r, by simpa [String.toList_append] using h₂⟩
          exact ⟨e, es, by rw [String.toList_inj.mp h₁, he]; rfl⟩

end Lib
