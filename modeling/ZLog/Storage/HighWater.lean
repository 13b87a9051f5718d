import ZLog.Storage.LifeCycle

/-!
# The high-water mark of a RAM log object

`MaxPos` is assembled from three fields that the operations update or skip: whether there are
entries, the largest position an entry was made at, and the trim limit.  After every session on an
object the answer is the largest position that a `Write`, `Fill` or `Trim` accepted, and nothing
else.

## Main result

- `ram_maxPos_highWater`: `MaxPos` after a whole session, and that it never decreases.
-/

namespace ZLog

/-! ## The mark of one object -/

namespace LogObject

/-- The object went through operations that touched the positions `T` one by one and raised the
    trim limit to the positions `L`. -/
structure Marks (o : LogObject) (T L : List Nat) : Prop where
  limit : o.trimLimit = L.max?
  keys : ∀ k ∈ o.entries, k ∈ T
  top : o.maxpos = 0 ∨ o.maxpos ∈ T
  covers : ∀ q ∈ T, o.belowTrimLimit q = true ∨ (o.entries ≠ ∅ ∧ q ≤ o.maxpos)

variable {o : LogObject} {T L : List Nat}

theorem Marks.new (e : Nat) : ({ epoch := e } : LogObject).Marks [] [] := by
  refine ⟨rfl, ?_, Or.inl rfl, ?_⟩
  · intro k hk
    exact absurd hk (AList.notMem_empty k)
  · intro q hq
    cases hq

/-- The epoch plays no part. -/
theorem Marks.setEpoch (h : o.Marks T L) (e : Nat) : ({ o with epoch := e } : LogObject).Marks T L :=
  ⟨h.limit, h.keys, h.top, h.covers⟩

theorem entries_ne_empty_iff : o.entries ≠ ∅ ↔ ∃ k, k ∈ o.entries := by
  constructor
  · intro hne
    by_contra hno
    apply hne
    apply AList.ext
    rw [AList.empty_entries, List.eq_nil_iff_forall_not_mem]
    intro x hx
    exact hno ⟨x.1, AList.mem_keys.mp (List.mem_map_of_mem hx)⟩
  · rintro ⟨k, hk⟩ hempty
    rw [hempty] at hk
    exact AList.notMem_empty k hk

/-- An entry stored at a position, as `Write`, `Fill` and a single trim do it. -/
theorem Marks.insert (h : o.Marks T L) (p : Nat) (e : LogEntry) :
    ({ o with entries := o.entries.insert p e, maxpos := max o.maxpos p } : LogObject).Marks
      (T ++ [p]) L := by
  refine ⟨h.limit, ?_, ?_, ?_⟩
  · intro k hk
    rcases (AList.mem_insert _).mp hk with rfl | hk
    · exact List.mem_append_right _ (List.mem_singleton.mpr rfl)
    · exact List.mem_append_left _ (h.keys k hk)
  · -- the greatest mark is the new one or the old one
    rcases Nat.le_total o.maxpos p with hle | hle
    · right
      rw [Nat.max_eq_right hle]
      exact List.mem_append_right _ (List.mem_singleton.mpr rfl)
    · rw [Nat.max_eq_left hle]
      exact h.top.imp_right (List.mem_append_left _)
  · -- an older mark is covered as before, the new one by its entry
    intro q hq
    have hsome : o.entries.insert p e ≠ ∅ :=
      (entries_ne_empty_iff (o := { o with entries := o.entries.insert p e })).mpr
        ⟨p, (AList.mem_insert _).mpr (Or.inl rfl)⟩
    rcases List.mem_append.mp hq with hq | hq
    · rcases h.covers q hq with hb | ⟨-, hle⟩
      · exact Or.inl hb
      · exact Or.inr ⟨hsome, le_trans hle (Nat.le_max_left _ _)⟩
    · rw [List.mem_singleton.mp hq]
      exact Or.inr ⟨hsome, Nat.le_max_right _ _⟩

/-- An operation that finds its position covered already. -/
theorem Marks.keep (h : o.Marks T L) {p : Nat}
    (hp : o.belowTrimLimit p = true ∨ p ∈ o.entries) : o.Marks (T ++ [p]) L := by
  refine ⟨h.limit, ?_, h.top.imp_right (List.mem_append_left _), ?_⟩
  · intro k hk
    exact List.mem_append_left _ (h.keys k hk)
  · intro q hq
    rcases List.mem_append.mp hq with hq | hq
    · exact h.covers q hq
    · rw [List.mem_singleton.mp hq]
      -- an entry at the position was touched before, so the mark is past it
      rcases hp with hb | hk
      · exact Or.inl hb
      · exact h.covers p (h.keys p hk)

theorem max?_append_singleton (l : List Nat) (p : Nat) :
    (l ++ [p]).max? = some (l.max?.elim p (max p)) := by
  apply List.max?_eq_some_iff.mpr
  cases hm : l.max? with
  | none =>
    rw [List.max?_eq_none_iff.mp hm]
    simp
  | some m =>
    obtain ⟨hmem, hle⟩ := List.max?_eq_some_iff.mp hm
    constructor
    · rcases Nat.le_total p m with h | h <;> simp [h, hmem]
    · intro q hq
      rcases List.mem_append.mp hq with hq | hq
      · exact le_trans (hle q hq) (Nat.le_max_right _ _)
      · rw [List.mem_singleton.mp hq]
        exact Nat.le_max_left _ _

/-- The trim limit raised. -/
theorem Marks.raise (h : o.Marks T L) (p : Nat) : (o.raiseTrimLimit p).Marks T (L ++ [p]) := by
  refine ⟨?_, ?_, ?_, ?_⟩
  · rw [max?_append_singleton, ← h.limit]
    unfold raiseTrimLimit
    cases hl : o.trimLimit <;> rfl
  · rw [entries_raiseTrimLimit]
    exact h.keys
  · rw [maxpos_raiseTrimLimit]
    exact h.top
  · intro q hq
    rw [belowTrimLimit_raiseTrimLimit, entries_raiseTrimLimit, maxpos_raiseTrimLimit]
    rcases h.covers q hq with hb | hm
    · exact Or.inl (by rw [hb, Bool.or_true])
    · exact Or.inr hm

/-- The entries dropped by a trim that covers them all. -/
theorem Marks.clear (h : o.Marks T L) {p : Nat} (hp : ∀ q ∈ T, q ≤ p) :
    ({ o.raiseTrimLimit p with entries := ∅ } : LogObject).Marks T (L ++ [p]) := by
  have hr := h.raise p
  refine ⟨hr.limit, ?_, hr.top, ?_⟩
  · intro k hk
    exact absurd hk (AList.notMem_empty k)
  · intro q hq
    left
    show (o.raiseTrimLimit p).belowTrimLimit q = true
    rw [belowTrimLimit_raiseTrimLimit, decide_eq_true (hp q hq), Bool.true_or]

/-- The positions a trim adds to the touched ones and to the limits. -/
theorem Marks.trim (h : o.Marks T L) {p : Nat} {l f : Bool} (hlf : f = true → l = true)
    (hp : f = true → ∀ q ∈ T, q ≤ p) :
    (o.trim p l f).Marks (if l then T else T ++ [p]) (if l then L ++ [p] else L) := by
  -- a full trim clears the object, a range trim raises the limit, a single one leaves an entry
  cases l with
  | true =>
    cases f with
    | true => exact h.clear (hp rfl)
    | false =>
      rw [trim_range]
      exact h.raise p
  | false =>
    cases f with
    -- a full trim that is no range trim is not made
    | true => exact absurd (hlf rfl) (by simp)
    | false =>
      unfold LogObject.trim
      simp only [Bool.false_eq_true, if_false]
      split
      · next hb => exact h.keep (Or.inl hb)
      · unfold trimEntry
        split <;> exact h.insert p _

theorem keys_isEmpty_iff : o.entries.keys.isEmpty = true ↔ o.entries = ∅ := by
  rw [List.isEmpty_iff, ← not_iff_not]
  show _ ↔ o.entries ≠ ∅
  rw [entries_ne_empty_iff, List.eq_nil_iff_forall_not_mem]
  simp [AList.mem_keys]

/-- **The mark**: `MaxPos` answers the largest of the positions behind an object. -/
theorem Marks.maxPos (h : o.Marks T L) : o.maxPos = (T ++ L).max? := by
  have hbelow : ∀ q, o.belowTrimLimit q = true → ∃ m, L.max? = some m ∧ q ≤ m := by
    intro q hq
    unfold belowTrimLimit at hq
    rw [h.limit] at hq
    cases hm : L.max? with
    | none =>
      rw [hm] at hq
      cases hq
    | some m =>
      rw [hm] at hq
      exact ⟨m, rfl, of_decide_eq_true hq⟩
  unfold LogObject.maxPos
  by_cases hempty : o.entries = ∅
  · rw [if_pos (keys_isEmpty_iff.mpr hempty), h.limit]
    -- without entries every touched position is below the limit
    have hT : ∀ q ∈ T, ∃ m, L.max? = some m ∧ q ≤ m := by
      intro q hq
      rcases h.covers q hq with hb | ⟨hne, -⟩
      · exact hbelow q hb
      · exact absurd hempty hne
    cases hm : L.max? with
    | none =>
      have hnil : T = [] := by
        rw [List.eq_nil_iff_forall_not_mem]
        intro q hq
        obtain ⟨m, hm', -⟩ := hT q hq
        rw [hm] at hm'
        cases hm'
      rw [hnil, List.nil_append, hm]
    | some m =>
      obtain ⟨hmem, hle⟩ := List.max?_eq_some_iff.mp hm
      symm
      apply List.max?_eq_some_iff.mpr
      refine ⟨List.mem_append_right _ hmem, ?_⟩
      intro q hq
      rcases List.mem_append.mp hq with hq | hq
      · obtain ⟨m', hm', hq'⟩ := hT q hq
        rw [hm] at hm'
        cases hm'
        exact hq'
      · exact hle q hq
  · rw [if_neg (fun hk => hempty (keys_isEmpty_iff.mp hk)), h.limit]
    obtain ⟨k, hk⟩ := entries_ne_empty_iff.mp hempty
    have hkT := h.keys k hk
    have hT : ∀ q ∈ T, q ≤ o.maxpos ∨ ∃ m, L.max? = some m ∧ q ≤ m := by
      intro q hq
      rcases h.covers q hq with hb | ⟨-, hle⟩
      · exact Or.inr (hbelow q hb)
      · exact Or.inl hle
    symm
    cases hm : L.max? with
    | none =>
      have hnil : L = [] := List.max?_eq_none_iff.mp hm
      have hle : ∀ q ∈ T, q ≤ o.maxpos := by
        intro q hq
        rcases hT q hq with hle | ⟨m, hm', -⟩
        · exact hle
        · rw [hm] at hm'
          cases hm'
      rw [hnil, List.append_nil]
      apply List.max?_eq_some_iff.mpr
      refine ⟨?_, hle⟩
      rcases h.top with h0 | hmem
      · -- the mark 0 of an object with an entry is the position of that entry
        have hk0 := hle k hkT
        rw [h0] at hk0 ⊢
        rwa [Nat.le_zero.mp hk0] at hkT
      · exact hmem
    | some m =>
      obtain ⟨hmem, hle⟩ := List.max?_eq_some_iff.mp hm
      apply List.max?_eq_some_iff.mpr
      constructor
      · rcases Nat.le_total o.maxpos m with hmx | hmx
        · rw [Nat.max_eq_right hmx]
          exact List.mem_append_right _ hmem
        · rw [Nat.max_eq_left hmx]
          rcases h.top with h0 | htop
          · have hm0 : m = o.maxpos := by omega
            rw [← hm0]
            exact List.mem_append_right _ hmem
          · exact List.mem_append_left _ htop
      · intro q hq
        rcases List.mem_append.mp hq with hq | hq
        · rcases hT q hq with hle' | ⟨m', hm', hq'⟩
          · exact le_trans hle' (Nat.le_max_left _ _)
          · rw [hm] at hm'
            cases hm'
            exact le_trans hq' (Nat.le_max_right _ _)
        · exact le_trans (hle q hq) (Nat.le_max_right _ _)

end LogObject

/-! ## The mark of a session -/

variable {ν : Type}

/-- The position of a `Write`, `Fill` or `Trim` that returned 0. -/
def Done.reaches : Done ν → Option Nat
  | ⟨.write _ _ _ position, .ok _⟩ => some position
  | ⟨.fill _ _ position, .ok _⟩ => some position
  | ⟨.trim _ _ position _ _, .ok _⟩ => some position
  | _ => none

/-- The position of a `Trim` with `trim_limit` that returned 0. -/
def Done.limits : Done ν → Option Nat
  | ⟨.trim _ _ position true _, .ok _⟩ => some position
  | _ => none

/-- The positions of the writes, fills and trims that returned 0. -/
def reached (h : List (Done ν)) : List Nat := h.filterMap Done.reaches

def limited (h : List (Done ν)) : List Nat := h.filterMap Done.limits

@[simp] theorem limited_append (h : List (Done ν)) (d : Done ν) :
    limited (h ++ [d]) = limited h ++ d.limits.toList := by
  cases hd : d.limits <;> simp [limited, hd]

/-- A call reaches a position by touching it or by raising the limit to it. -/
theorem Done.reaches_iff (d : Done ν) (p : Nat) :
    d.reaches = some p ↔ d.touches = some p ∨ d.limits = some p := by
  obtain ⟨c, r⟩ := d
  cases c with
  | write oid data e q => cases r <;> simp [Done.reaches, Done.touches, Done.limits]
  | fill oid e q => cases r <;> simp [Done.reaches, Done.touches, Done.limits]
  | trim oid e q l f =>
    cases r <;> cases l <;> simp [Done.reaches, Done.touches, Done.limits]
  | _ => simp [Done.reaches, Done.touches, Done.limits]

theorem mem_reached {h : List (Done ν)} {p : Nat} :
    p ∈ reached h ↔ p ∈ touched h ++ limited h := by
  simp only [reached, touched, limited, List.mem_append, List.mem_filterMap, Done.reaches_iff]
  constructor
  · rintro ⟨d, hd, hp | hp⟩
    · exact Or.inl ⟨d, hd, hp⟩
    · exact Or.inr ⟨d, hd, hp⟩
  · rintro (⟨d, hd, hp⟩ | ⟨d, hd, hp⟩)
    · exact ⟨d, hd, Or.inl hp⟩
    · exact ⟨d, hd, Or.inr hp⟩

theorem reached_max? (h : List (Done ν)) : (reached h).max? = (touched h ++ limited h).max? := by
  cases hm : (touched h ++ limited h).max? with
  | none =>
    have hnil := List.max?_eq_none_iff.mp hm
    rw [List.max?_eq_none_iff, List.eq_nil_iff_forall_not_mem]
    intro p hp
    rw [mem_reached, hnil] at hp
    cases hp
  | some m =>
    obtain ⟨hmem, hle⟩ := List.max?_eq_some_iff.mp hm
    apply List.max?_eq_some_iff.mpr
    exact ⟨mem_reached.mpr hmem, fun q hq => hle q (mem_reached.mp hq)⟩

/-- The call is a `Seal` that returned 0. -/
def Done.seals : Done ν → Bool
  | ⟨.seal _ _, .ok _⟩ => true
  | _ => false

/-- A `Seal` of the object returned 0. -/
def Created (oid : String) (h : List (Done ν)) : Prop :=
  ∃ e, (⟨.seal oid e, .ok ()⟩ : Done ν) ∈ h

/-- The object is not there and nothing was accepted, or it was created and carries the marks of
    its session. -/
def Marked (oid : String) (h : List (Done ν)) (b : RAMBackend ν) : Prop :=
  (b.objects.lookup oid = none ∧ ¬ Created oid h ∧ touched h = [] ∧ limited h = []) ∨
  ∃ o, b.objects.lookup oid = some (.log o) ∧ Created oid h ∧ o.Marks (touched h) (limited h)

theorem Created.mono {oid : String} {h : List (Done ν)} (hc : Created oid h) (d : Done ν) :
    Created oid (h ++ [d]) := by
  obtain ⟨e, he⟩ := hc
  exact ⟨e, List.mem_append_left _ he⟩

/-- A call that leaves the state and accepts nothing. -/
theorem Marked.refused {oid : String} {h : List (Done ν)} {b : RAMBackend ν} (hm : Marked oid h b)
    {d : Done ν} (ht : d.touches = none) (hl : d.limits = none)
    (hs : d.seals = false) : Marked oid (h ++ [d]) b := by
  unfold Marked
  rw [touched_append, limited_append, ht, hl, Option.toList_none, List.append_nil, List.append_nil]
  rcases hm with ⟨hn, hc, htn, hln⟩ | ⟨o, ho, hc, hmarks⟩
  · refine Or.inl ⟨hn, ?_, htn, hln⟩
    rintro ⟨e, he⟩
    rcases List.mem_append.mp he with he | he
    · exact hc ⟨e, he⟩
    · rw [← List.mem_singleton.mp he] at hs
      cases hs
  · exact Or.inr ⟨o, ho, hc.mono d, hmarks⟩

/-- The object a call that passed its checks works on. -/
theorem Marked.object {oid : String} {h : List (Done ν)} {b : RAMBackend ν} (hm : Marked oid h b)
    {o : LogObject} (ho : b.logAt oid = some o) :
    Created oid h ∧ o.Marks (touched h) (limited h) := by
  rw [RAMBackend.logAt_eq_some] at ho
  rcases hm with ⟨hn, -⟩ | ⟨o', ho', hc, hmarks⟩
  · rw [hn] at ho
    cases ho
  · rw [ho] at ho'
    cases ho'
    exact ⟨hc, hmarks⟩

/-- A call that stores a new object with the new marks. -/
theorem Marked.stored {oid : String} {h : List (Done ν)} (b : RAMBackend ν) {d : Done ν}
    {o : LogObject} {T L : List Nat} (hc : Created oid (h ++ [d])) (hm : o.Marks T L)
    (ht : touched h ++ d.touches.toList = T) (hl : limited h ++ d.limits.toList = L) :
    Marked oid (h ++ [d]) (b.setLog oid o) := by
  right
  rw [touched_append, limited_append, ht, hl]
  exact ⟨o, by rw [RAMBackend.lookup_setLog, if_pos rfl], hc, hm⟩

/-- One call keeps the marks. -/
theorem Marked.exec {oid : String} {h : List (Done ν)} {b : RAMBackend ν} (hm : Marked oid h b)
    {α : Type} {c : Call ν α} (hc : OnObject oid c) (hok : TrimFullOk h c) :
    Marked oid (h ++ [⟨c, (b.exec c).1⟩]) (b.exec c).2 := by
  cases hc with
  | «seal» e =>
    show Marked oid (h ++ [⟨.seal oid e, (b.seal oid e).1⟩]) (b.seal oid e).2
    rcases b.seal_cases oid e with ⟨-, hr⟩ | ⟨-, -, hn, hr⟩ | ⟨o, -, -, hr⟩ | ⟨o, ho, -, -, hr⟩ |
      ⟨-, -, hr⟩ <;> rw [hr]
    · exact hm.refused rfl rfl rfl
    · -- the first `Seal` makes the object
      rcases hm with ⟨-, -, ht, hl⟩ | ⟨o, ho, -⟩
      · apply Marked.stored b _ (LogObject.Marks.new e)
        · rw [ht]
          rfl
        · rw [hl]
          rfl
        · exact ⟨e, List.mem_append_right _ (List.mem_singleton.mpr rfl)⟩
      · rw [hn] at ho
        cases ho
    · exact hm.refused rfl rfl rfl
    · obtain ⟨hcr, hmarks⟩ := hm.object ho
      exact Marked.stored b (hcr.mono _) (hmarks.setEpoch e) (List.append_nil _) (List.append_nil _)
    · exact hm.refused rfl rfl rfl
  | read e q => exact hm.refused rfl rfl rfl
  | write d e q =>
    show Marked oid (h ++ [⟨.write oid d e q, (b.write oid d e q).1⟩]) (b.write oid d e q).2
    rcases b.write_cases oid d e q with ⟨err, -, hr⟩ | ⟨o, -, -, hr⟩ | ⟨o, hio, hu, hr⟩ <;> rw [hr]
    · exact hm.refused rfl rfl rfl
    · exact hm.refused rfl rfl rfl
    · have ho := (RAMBackend.checkIo_eq_ok.mp hio).2.2.1
      obtain ⟨hcr, hmarks⟩ := hm.object ho
      rw [LogObject.write_of_unwritten hu]
      exact Marked.stored b (hcr.mono _) (hmarks.insert q _) rfl (List.append_nil _)
  | fill e q =>
    show Marked oid (h ++ [⟨.fill oid e q, (b.fill oid e q).1⟩]) (b.fill oid e q).2
    rcases b.fill_cases oid e q with ⟨err, -, hr⟩ | ⟨o, d, -, -, hr⟩ | ⟨o, hio, hs, hr⟩ |
      ⟨o, hio, hs, hr⟩ <;> rw [hr]
    · exact hm.refused rfl rfl rfl
    · exact hm.refused rfl rfl rfl
    · have ho := (RAMBackend.checkIo_eq_ok.mp hio).2.2.1
      obtain ⟨hcr, hmarks⟩ := hm.object ho
      -- an invalid position is below the limit or holds an entry
      have hq : o.belowTrimLimit q = true ∨ q ∈ o.entries := by
        by_contra hno
        rw [not_or, Bool.not_eq_true] at hno
        rw [LogObject.slot_eq_unwritten_iff.mpr hno] at hs
        cases hs
      exact Marked.stored b (hcr.mono _) (hmarks.keep hq) rfl (List.append_nil _)
    · have ho := (RAMBackend.checkIo_eq_ok.mp hio).2.2.1
      obtain ⟨hcr, hmarks⟩ := hm.object ho
      rw [LogObject.fill_of_unwritten hs]
      exact Marked.stored b (hcr.mono _) (hmarks.insert q _) rfl (List.append_nil _)
  | trim e q l f =>
    show Marked oid (h ++ [⟨.trim oid e q l f, (b.trim oid e q l f).1⟩]) (b.trim oid e q l f).2
    rcases b.trim_cases oid e q l f with ⟨-, -, hr⟩ | ⟨err, -, hr⟩ | ⟨o, hio, hlf, hr⟩ <;> rw [hr]
    · cases l <;> exact hm.refused rfl rfl rfl
    · cases l <;> exact hm.refused rfl rfl rfl
    · have ho := (RAMBackend.checkIo_eq_ok.mp hio).2.2.1
      have hcover : f = true → ∀ p ∈ touched h, p ≤ q := by
        intro hf
        subst hf
        exact hok
      obtain ⟨hcr, hmarks⟩ := hm.object ho
      apply Marked.stored b (hcr.mono _) (hmarks.trim hlf hcover)
      · cases l <;> simp [Done.touches]
      · cases l <;> simp [Done.limits]
  | maxPos => exact hm.refused rfl rfl rfl

theorem Session.marked {oid : String} {h₀ h : List (Done ν)} {b₀ b : RAMBackend ν}
    (hm : Marked oid h₀ b₀) (hs : Session oid h₀ b₀ h b) : Marked oid h b := by
  induction hs with
  | start => exact hm
  | call c _ hc hok ih => exact ih.exec hc hok

/-- A session only adds answers. -/
theorem Session.prefix {oid : String} {h₀ h : List (Done ν)} {b₀ b : RAMBackend ν}
    (hs : Session oid h₀ b₀ h b) : h₀ <+: h := by
  induction hs with
  | start => exact List.prefix_refl _
  | call c _ _ _ ih => exact ih.trans (List.prefix_append _ _)

/-- `MaxPos` by the marks. -/
theorem Marked.maxPos {oid : String} {h : List (Done ν)} {b : RAMBackend ν} (hm : Marked oid h b)
    (hne : oid ≠ "") (hc : Created oid h) : b.maxPos oid = .ok (reached h).max? := by
  rcases hm with ⟨-, hno, -⟩ | ⟨o, ho, -, hmarks⟩
  · exact absurd hc hno
  · unfold RAMBackend.maxPos
    rw [if_neg hne, ho, reached_max?, ← hmarks.maxPos]

/-- No object has the empty name. -/
theorem Session.created_ne {oid : String} {h : List (Done ν)} {b₀ b : RAMBackend ν}
    (hs : Session oid [] b₀ h b) (hc : Created oid h) : oid ≠ "" := by
  rintro rfl
  obtain ⟨e, he⟩ := hc
  induction hs with
  | start => cases he
  | @call h b α c _ hc _ ih =>
    rcases List.mem_append.mp he with he | he
    · exact ih he
    · -- `Seal` of the empty name is refused
      have hseals : Done.seals ⟨c, (b.exec c).1⟩ = true := by
        rw [← List.mem_singleton.mp he]
        rfl
      cases hc <;> cases hseals

/-- Sessions follow one another. -/
theorem Session.trans {oid : String} {h₀ h₁ h₂ : List (Done ν)} {b₀ b₁ b₂ : RAMBackend ν}
    (hs : Session oid h₀ b₀ h₁ b₁) (hs' : Session oid h₁ b₁ h₂ b₂) : Session oid h₀ b₀ h₂ b₂ := by
  induction hs' with
  | start => exact hs
  | call c _ hc hok ih => exact ih.call c hc hok

/-- The largest accepted position grows with the history. -/
theorem max?_reached_mono {h h' : List (Done ν)} (hp : h <+: h') {p : Nat}
    (hm : (reached h).max? = some p) : ∃ p', (reached h').max? = some p' ∧ p ≤ p' := by
  have hmem := (List.max?_eq_some_iff.mp hm).1
  have hsub : p ∈ reached h' := (hp.filterMap _).subset hmem
  cases hm' : (reached h').max? with
  | none =>
    rw [List.max?_eq_none_iff.mp hm'] at hsub
    cases hsub
  | some p' => exact ⟨p', rfl, (List.max?_eq_some_iff.mp hm').2 p hsub⟩

/-- **High-water mark** of a RAM log object, after every session on a name that was free.  Once
    the object was created `MaxPos` answers the largest position of the writes, fills and trims
    that returned 0, empty when there was none; before that there were none and `MaxPos` fails.
    The answer never decreases. -/
theorem ram_maxPos_highWater {oid : String} {b₀ b : RAMBackend ν} {h : List (Done ν)}
    (hfree : b₀.objects.lookup oid = none) (hs : Session oid [] b₀ h b) :
    (Created oid h → b.maxPos oid = .ok (reached h).max?) ∧
    (¬ Created oid h → reached h = [] ∧ ∃ e, b.maxPos oid = .error e) ∧
    ∀ h' b', Session oid h b h' b' → ∀ p, b.maxPos oid = .ok (some p) →
      ∃ p', b'.maxPos oid = .ok (some p') ∧ p ≤ p' := by
  have hnone : ¬ Created oid ([] : List (Done ν)) := by
    rintro ⟨e, he⟩
    cases he
  have hstart : Marked oid [] b₀ := Or.inl ⟨hfree, hnone, rfl, rfl⟩
  have hm : Marked oid h b := hs.marked hstart
  -- an object that was never created holds nothing and answers with an error
  have hfails : ¬ Created oid h → reached h = [] ∧ ∃ e, b.maxPos oid = .error e := by
    intro hno
    rcases hm with ⟨hn, -, ht, hl⟩ | ⟨o, -, hc, -⟩
    · constructor
      · rw [List.eq_nil_iff_forall_not_mem]
        intro p hp
        rw [mem_reached, ht, hl] at hp
        cases hp
      · unfold RAMBackend.maxPos
        rw [hn]
        split
        · exact ⟨_, rfl⟩
        · exact ⟨_, rfl⟩
    · exact absurd hc hno
  -- by the invariant at the end of the session; the last part needs it at both ends
  refine ⟨fun hc => hm.maxPos (hs.created_ne hc) hc, hfails, ?_⟩
  intro h' b' hs' p hp
  have hall := hs.trans hs'
  -- the first answer shows that the object was there
  have hc : Created oid h := by
    by_contra hno
    obtain ⟨-, e, he⟩ := hfails hno
    rw [he] at hp
    cases hp
  have hc' : Created oid h' := by
    obtain ⟨e, he⟩ := hc
    exact ⟨e, hs'.prefix.subset he⟩
  rw [hm.maxPos (hs.created_ne hc) hc] at hp
  obtain ⟨p', hp', hle⟩ := max?_reached_mono hs'.prefix (Except.ok.inj hp)
  exact ⟨p', by rw [(hall.marked hstart).maxPos (hall.created_ne hc') hc', hp'], hle⟩

/-- The calls of a session that writes, trims in full and fills below the limit. -/
def highWaterCalls : List (AnyCall Unit) :=
  [⟨_, .seal "o" 1⟩, ⟨_, .write "o" "a" 1 3⟩, ⟨_, .trim "o" 1 4 true true⟩, ⟨_, .fill "o" 1 2⟩]

theorem ram_maxPos_highWater_full_trim :
    (after {} highWaterCalls).maxPos "o" = .ok (some 4) ∧
      (after {} highWaterCalls).maxPos "o" =
        .ok (reached (answers {} highWaterCalls)).max? := by
  refine ⟨by decide, ?_⟩
  have hs : Session "o" [] {} (answers {} highWaterCalls) (after {} highWaterCalls) := by
    apply Session.of_continues (h := []) highWaterCalls
    refine ⟨.seal 1, trivial, .write "a" 1 3, trivial, .trim 1 4 true true, ?_, .fill 1 2, trivial,
      trivial⟩
    intro q hq
    have htouched : touched (answers {} (highWaterCalls.take 2)) = [3] := by decide
    have hq' : q ∈ touched (answers {} (highWaterCalls.take 2)) := hq
    rw [htouched, List.mem_singleton] at hq'
    omega
  apply (ram_maxPos_highWater rfl hs).1
  exact ⟨1, List.mem_cons_self ..⟩

end ZLog
