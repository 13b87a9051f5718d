import ZLog.Client.LogOps
import ZLog.Lib.Legal
import Mathlib.Logic.Function.Basic
import Mathlib.Order.Bounds.Basic
import Mathlib.Order.Lattice
import Mathlib.Order.Lattice.Nat

/-!
# The shared log

The log as its users see it: positions that hold data or are invalid, a range at the beginning that
has been trimmed, and the counter from which appends take their positions.  It says what the
operations of one client mean when they are issued one after the other.

## Main results

- `SharedLog.exists_tail`: a log with finitely many positions in use can be opened.
- `SharedLog.Run.determined`: the requests determine the answers.
-/

namespace ZLog

/-- What a position can hold. -/
inductive SharedLog.Entry where
  | data (data : String)
  | invalid

/-- A shared log. -/
structure SharedLog where
  entries : Nat → Option SharedLog.Entry
  /-- The positions below have been covered by a `trimTo`. -/
  trimmed : Nat
  counter : Nat

namespace SharedLog

/-- Nothing was ever appended. -/
def empty : SharedLog := ⟨fun _ => none, 0, 0⟩

/-- The positions that are occupied or covered. -/
def used (l : SharedLog) : Set Nat := {p | p < l.trimmed ∨ l.entries p ≠ none}

/-- The log with another entry. -/
def set (l : SharedLog) (p : Nat) (entry : Entry) : SharedLog :=
  { l with entries := Function.update l.entries p (some entry) }

/-- What `Read` returns. -/
def read (l : SharedLog) (p : Nat) : Ret Reply :=
  if p < l.trimmed then .error .enodata
  else
    match l.entries p with
    | none => .error .enoent
    | some (.data data) => .ok (.data data)
    | some .invalid => .error .enodata

/-- `Fill` fails on readable data only. -/
def fill (l : SharedLog) (p : Nat) : Ret Reply × SharedLog :=
  match l.read p with
  | .ok _ => (.error .erofs, l)
  | .error _ => (.ok .unit, l.set p .invalid)

/-- What an operation returns, and the log after it. -/
inductive Step (l : SharedLog) : Request → Ret Reply → SharedLog → Prop where
  /-- An append takes the least position from the counter on that is not in use. -/
  | append (data : String) (p : Nat) : IsLeast {q | l.counter ≤ q ∧ q ∉ l.used} p →
      Step l (.append data) (.ok (.position p)) { l.set p (.data data) with counter := p + 1 }
  | read (p : Nat) : Step l (.read p) (l.read p) l
  | fill (p : Nat) : Step l (.fill p) (l.fill p).1 (l.fill p).2
  | trim (p : Nat) : Step l (.trim p) (.ok .unit) (l.set p .invalid)
  | trimTo (p : Nat) : Step l (.trimTo p) (.ok .unit) { l with trimmed := max l.trimmed (p + 1) }
  | checkTail : Step l .checkTail (.ok (.position l.counter)) l

/-- The counter of a log that is opened: it is behind the greatest position in use. -/
def Tail (l : SharedLog) (n : Nat) : Prop :=
  l.used = ∅ ∧ n = 0 ∨ ∃ p, IsGreatest l.used p ∧ n = p + 1

/-- What a user sees of the log. -/
inductive Event where
  | opened
  | returned (request : Request) (result : Ret Reply)
  deriving DecidableEq

def Event.request? : Event → Option Request
  | .opened => none
  | .returned request _ => some request

/-- What an event does to the log, when `tail` says where the counter of a log starts that is
    opened. -/
inductive Effect (tail : SharedLog → Nat → Prop) (l : SharedLog) : Event → SharedLog → Prop where
  | opened {n : Nat} : tail l n → Effect tail l .opened { l with counter := n }
  | returned {l' : SharedLog} {r : Request} {result : Ret Reply} : l.Step r result l' →
      Effect tail l (.returned r result) l'

/-- The log after the events. -/
abbrev Run (tail : SharedLog → Nat → Prop) : List Event → SharedLog → Prop :=
  Lib.Legal (Effect tail) .empty

/-! ## Facts about the log -/

section

variable {l l' l'' : SharedLog} {p n : Nat}

/-- The tail of a log in which finitely many positions are in use. -/
theorem exists_tail (h : BddAbove l.used) : ∃ n, l.Tail n := by
  rcases Set.eq_empty_or_nonempty l.used with hempty | hne
  · exact ⟨0, Or.inl ⟨hempty, rfl⟩⟩
  · exact ⟨sSup l.used + 1, Or.inr ⟨_, ⟨Nat.sSup_mem hne h, fun _ => le_csSup h⟩, rfl⟩⟩

theorem Tail.unique {m : Nat} (h : l.Tail n) (h' : l.Tail m) : n = m := by
  rcases h with ⟨hempty, rfl⟩ | ⟨p, hp, rfl⟩
  · rcases h' with ⟨-, rfl⟩ | ⟨q, hq, -⟩
    · rfl
    · rw [hempty] at hq
      exact absurd hq.1 (Set.notMem_empty q)
  · rcases h' with ⟨hempty, -⟩ | ⟨q, hq, rfl⟩
    · rw [hempty] at hp
      exact absurd hp.1 (Set.notMem_empty p)
    · rw [hp.unique hq]

/-- An operation has one answer. -/
theorem Step.unique {r : Request} {result result' : Ret Reply} (h : l.Step r result l')
    (h' : l.Step r result' l'') : result = result' ∧ l' = l'' := by
  cases h with
  | append data p hp =>
    cases h' with
    | append _ q hq =>
      obtain rfl := hp.unique hq
      exact ⟨rfl, rfl⟩
  | read p => cases h'; exact ⟨rfl, rfl⟩
  | fill p => cases h'; exact ⟨rfl, rfl⟩
  | trim p => cases h'; exact ⟨rfl, rfl⟩
  | trimTo p => cases h'; exact ⟨rfl, rfl⟩
  | checkTail => cases h'; exact ⟨rfl, rfl⟩

/-- **Determinism**: the requests determine the answers and the log. -/
theorem Run.determined {es es' : List Event} (h : Run Tail es l) (h' : Run Tail es' l')
    (hreq : es.map Event.request? = es'.map Event.request?) : es = es' ∧ l = l' := by
  refine Lib.Legal.determined ?_ h h' hreq
  intro l e e' l₁ l₂ he he' heq
  cases he with
  | opened htail =>
    cases he' with
    | opened htail' =>
      obtain rfl := htail.unique htail'
      exact ⟨rfl, rfl⟩
    | returned => cases heq
  | returned hstep =>
    cases he' with
    | opened => cases heq
    | returned hstep' =>
      cases heq
      obtain ⟨rfl, rfl⟩ := hstep.unique hstep'
      exact ⟨rfl, rfl⟩

/-! ## The positions in use -/

theorem used_set {entry : Entry} : (l.set p entry).used ⊆ insert p l.used := by
  intro q hq
  by_cases hqp : q = p
  · exact Or.inl hqp
  · right
    rcases hq with hlt | hne
    · exact Or.inl hlt
    · right
      have hsame : (l.set p entry).entries q = l.entries q := Function.update_of_ne hqp _ _
      exact hsame ▸ hne

theorem bddAbove_set {entry : Entry} (h : BddAbove l.used) : BddAbove (l.set p entry).used :=
  (h.insert p).mono used_set

/-- An operation leaves finitely many positions in use. -/
theorem Step.bddAbove {r : Request} {result : Ret Reply} (h : l.Step r result l')
    (hb : BddAbove l.used) : BddAbove l'.used := by
  cases h with
  | append data p hp => exact bddAbove_set hb
  | read p => exact hb
  | fill p =>
    unfold SharedLog.fill
    split
    · exact hb
    · exact bddAbove_set hb
  | trim p => exact bddAbove_set hb
  | trimTo p =>
    obtain ⟨m, hm⟩ := hb
    refine ⟨max m p, ?_⟩
    rintro q (hlt | hne)
    · rcases lt_max_iff.mp hlt with hlt | hlt
      · exact le_max_of_le_left (hm (Or.inl hlt))
      · exact le_max_of_le_right (Nat.le_of_lt_succ hlt)
    · exact le_max_of_le_left (hm (Or.inr hne))
  | checkTail => exact hb

/-- In every log that events lead to, finitely many positions are in use. -/
theorem Run.bddAbove {tail : SharedLog → Nat → Prop} {es : List Event} (h : Run tail es l) :
    BddAbove l.used := by
  refine h.invariant (I := fun l => BddAbove l.used) ?_ ?_
  · intro l e l' hb he
    cases he with
    | opened => exact hb
    | returned hstep => exact hstep.bddAbove hb
  · refine ⟨0, ?_⟩
    rintro q (hlt | hne)
    · exact absurd hlt (Nat.not_lt_zero q)
    · exact absurd rfl hne

end

end SharedLog

end ZLog
