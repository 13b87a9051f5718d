import ZLog.Storage.CephAgree
import ZLog.Storage.ClsCases

/-!
# Trim limits on the persistent backends

LMDB and Ceph store the trim limit of an object as a signed integer that means "none" when it
is negative, and compare and raise it as an unsigned one.  The largest limit asked for is what
either backend enforces as long as every limit fits the signed type; one that does not is lost.

## Main results

- `KeepsLimits.kept`: an invariant that says which limit a backend stores carries the promise
  of every limit over a whole run.
- `LMDBBackend.keepsLimits`, `CephBackend.keepsLimits`: both backends store the largest limit.
- `limitsKept_iff`: the limits of a run are kept exactly when they are below `2 ^ 63`.
-/

namespace ZLog

open Cls

variable {ν σ : Type}

/-! ## Runs on one object -/

/-- A backend, by the answers and the states that a call can end with. -/
abbrev Executes (ν σ : Type) := (α : Type) → σ → Call ν α → α → σ → Prop

/-- A call on LMDB, with its answer and the database after it. -/
def LMDBBackend.executes : Executes ν (LMDBBackend ν) := fun _ b c r b' => b.exec c = (r, b')

/-- Every call may come from another instance, with options of its own. -/
def CephBackend.executes : Executes ν (Pool ν) := fun _ pool c r pool' =>
  ∃ be : CephBackend, be.exec pool c = (r, pool')

/-- The epoch that a call seals an object for. -/
def Call.sealsFor : {α : Type} → Call ν α → Option Nat
  | _, .seal _ epoch => some epoch
  | _, _ => none

/-- The position that a call is about. -/
def Call.position : {α : Type} → Call ν α → Option Nat
  | _, .read _ _ position => some position
  | _, .write _ _ _ position => some position
  | _, .fill _ _ position => some position
  | _, .trim _ _ position _ _ => some position
  | _, _ => none

/-- The position of a trim with `trim_limit` set. -/
def Call.limit : {α : Type} → Call ν α → Option Nat
  | _, .trim _ _ position true _ => some position
  | _, _ => none

/-- The epoch of the last seal, 0 when there was none. -/
def lastSeal (h : List (Done ν)) : Nat := h.foldl (fun e d => d.call.sealsFor.getD e) 0

/-- A seal goes past the last one; an entry call comes after a seal and is not behind it. -/
structure NotStale (e : Nat) {α : Type} (c : Call ν α) : Prop where
  seals : ∀ e', c.sealsFor = some e' → e < e'
  entry : ∀ e', c.ioEpoch = some e' → 1 ≤ e ∧ e ≤ e'

/-- Calls on `oid` that are not stale, with positions of the type `uint64_t`. -/
inductive LimitRun (exec : Executes ν σ) (oid : String) (s₀ : σ) : List (Done ν) → σ → Prop where
  | start : LimitRun exec oid s₀ [] s₀
  | call {h : List (Done ν)} {s s' : σ} {α : Type} (c : Call ν α) (r : α) :
      LimitRun exec oid s₀ h s → OnObject oid c → NotStale (lastSeal h) c →
      (∀ p, c.position = some p → p < 2 ^ 64) → TrimFullOk h c → exec α s c r s' →
      LimitRun exec oid s₀ (h ++ [⟨c, r⟩]) s'

/-- No position up to `x` can be read or written. -/
def Trimmed (exec : Executes ν σ) (oid : String) (e : Nat) (s : σ) (x : Nat) : Prop :=
  ∀ q ≤ x, ∀ e' ≥ e,
    (∀ r s', exec _ s (.read oid e' q) r s' → r = .error .enodata) ∧
    ∀ d r s', exec _ s (.write oid d e' q) r s' → r = .error .erofs

/-- Every limit asked for was accepted and holds. -/
def LimitsKept (exec : Executes ν σ) (oid : String) (h : List (Done ν)) (s : σ) : Prop :=
  ∀ e x f r, (⟨.trim oid e x true f, r⟩ : Done ν) ∈ h →
    r = .ok () ∧ Trimmed exec oid (lastSeal h) s x

/-- Every limit asked for fits the signed type. -/
def LimitsFit (oid : String) (h : List (Done ν)) : Prop :=
  ∀ e x f r, (⟨.trim oid e x true f, r⟩ : Done ν) ∈ h → x < 2 ^ 63

/-! ## The largest limit -/

/-- The limit after a call. -/
def nextLimit (t : Option Nat) (d : Done ν) : Option Nat :=
  match d.call.limit with
  | some x => some (raiseMax t x)
  | none => t

/-- The largest limit asked for. -/
def largestLimit (h : List (Done ν)) : Option Nat := h.foldl nextLimit none

/-- The last seal of a history that has grown. -/
@[simp] theorem lastSeal_append (h : List (Done ν)) (d : Done ν) :
    lastSeal (h ++ [d]) = d.call.sealsFor.getD (lastSeal h) := by
  simp [lastSeal]

/-- The greatest limit of a history that has grown. -/
@[simp] theorem largestLimit_append (h : List (Done ν)) (d : Done ν) :
    largestLimit (h ++ [d]) = nextLimit (largestLimit h) d := by
  simp [largestLimit]

/-- A limit is raised to the new position at least. -/
theorem le_raiseMax (t : Option Nat) (x : Nat) : x ≤ raiseMax t x := by
  unfold raiseMax
  split <;> omega

/-- A limit is never lowered. -/
theorem le_raiseMax_of_some {t : Option Nat} {n : Nat} (ht : t = some n) (x : Nat) :
    n ≤ raiseMax t x := by
  subst ht
  exact le_max_left n x

/-- A limit never goes down. -/
theorem nextLimit_mono {t : Option Nat} {n : Nat} (ht : t = some n) (d : Done ν) :
    ∃ n', nextLimit t d = some n' ∧ n ≤ n' := by
  unfold nextLimit
  cases d.call.limit with
  | none => exact ⟨n, ht, le_rfl⟩
  | some x => exact ⟨_, rfl, le_raiseMax_of_some ht x⟩

/-- The largest limit covers every limit. -/
theorem le_largestLimit {oid : String} {h : List (Done ν)} {e x : Nat} {f : Bool} {r : Ret Unit}
    (hmem : (⟨.trim oid e x true f, r⟩ : Done ν) ∈ h) :
    ∃ n, largestLimit h = some n ∧ x ≤ n := by
  induction h using List.reverseRecOn with
  | nil => cases hmem
  | append_singleton h d ih =>
    rw [largestLimit_append]
    rcases List.mem_append.mp hmem with hmem | hmem
    · obtain ⟨n, hn, hle⟩ := ih hmem
      obtain ⟨n', hn', hle'⟩ := nextLimit_mono hn d
      exact ⟨n', hn', hle.trans hle'⟩
    · cases List.mem_singleton.mp hmem
      exact ⟨_, rfl, le_raiseMax _ x⟩

/-! ## The invariant of a backend -/

/-- The invariant `I` of a backend: calls whose limits fit keep it, limits are accepted, and it
    makes the backend refuse what the largest limit covers. -/
structure KeepsLimits (exec : Executes ν σ) (oid : String) (s₀ : σ)
    (I : List (Done ν) → σ → Prop) : Prop where
  start : I [] s₀
  step : ∀ {h : List (Done ν)} {s s' : σ} {α : Type} {c : Call ν α} {r : α}, I h s →
    OnObject oid c → NotStale (lastSeal h) c → (∀ p, c.position = some p → p < 2 ^ 64) →
    TrimFullOk h c → (∀ x, c.limit = some x → x < 2 ^ 63) → exec α s c r s' →
    I (h ++ [⟨c, r⟩]) s'
  accepts : ∀ {h : List (Done ν)} {s s' : σ} {e x : Nat} {f : Bool} {r : Ret Unit}, I h s →
    1 ≤ lastSeal h → lastSeal h ≤ e → TrimFullOk h (.trim oid e x true f : Call ν _) →
    x < 2 ^ 63 → exec _ s (.trim oid e x true f) r s' → r = .ok ()
  refuses : ∀ {h : List (Done ν)} {s : σ} {x n : Nat}, I h s → largestLimit h = some n →
    x ≤ n → Trimmed exec oid (lastSeal h) s x

/-- A prefix of a history has fewer limits. -/
theorem LimitsFit.of_prefix {oid : String} {h h₁ : List (Done ν)} (hfit : LimitsFit oid h)
    (hp : h₁ <+: h) : LimitsFit oid h₁ :=
  fun e x f r hmem => hfit e x f r (hp.subset hmem)

namespace KeepsLimits

variable {exec : Executes ν σ} {oid : String} {s₀ s : σ} {I : List (Done ν) → σ → Prop}
  {h : List (Done ν)}

/-- The limit of the last call fits. -/
theorem limit_lt {α : Type} {c : Call ν α} {r : α} (hc : OnObject oid c)
    (hfit : LimitsFit oid (h ++ [⟨c, r⟩])) (x : Nat) (hx : c.limit = some x) : x < 2 ^ 63 := by
  cases hc with
  | trim e p l f =>
    cases l with
    | false => cases hx
    | true =>
      cases hx
      exact hfit e x f r (by simp)
  | _ => cases hx

/-- **Run lemma**: the invariant holds in every state of a run whose limits fit. -/
theorem invariant (hk : KeepsLimits exec oid s₀ I) (hrun : LimitRun exec oid s₀ h s)
    (hfit : LimitsFit oid h) : I h s := by
  induction hrun with
  | start => exact hk.start
  | call c r _ hc hst hpos hok hexec ih =>
    exact hk.step (ih (hfit.of_prefix (List.prefix_append ..))) hc hst hpos hok (limit_lt hc hfit) hexec

/-- Limits that fit are accepted, each when it is asked for. -/
theorem accepted (hk : KeepsLimits exec oid s₀ I) (hrun : LimitRun exec oid s₀ h s)
    (hfit : LimitsFit oid h) {e x : Nat} {f : Bool} {r : Ret Unit}
    (hmem : (⟨.trim oid e x true f, r⟩ : Done ν) ∈ h) : r = .ok () := by
  induction hrun with
  | start => cases hmem
  | @call h s s' α c r' hrun hc hst hpos hok hexec ih =>
    rcases List.mem_append.mp hmem with hold | hnew
    · exact ih (hfit.of_prefix (List.prefix_append ..)) hold
    · have hI := hk.invariant hrun (hfit.of_prefix (List.prefix_append ..))
      have hx := hfit e x f r hmem
      cases List.mem_singleton.mp hnew
      obtain ⟨hpos', hle⟩ := hst.entry e rfl
      exact hk.accepts hI hpos' hle hok hx hexec

/-- A run whose limits fit keeps them. -/
theorem kept (hk : KeepsLimits exec oid s₀ I) (hrun : LimitRun exec oid s₀ h s)
    (hfit : LimitsFit oid h) : LimitsKept exec oid h s := by
  intro e x f r hmem
  refine ⟨hk.accepted hrun hfit hmem, ?_⟩
  obtain ⟨n, hn, hle⟩ := le_largestLimit hmem
  exact hk.refuses (hk.invariant hrun hfit) hn hle

/-- A backend that breaks a promise with the first limit that does not fit keeps the limits of a
    run only if they all fit. -/
theorem fits (hk : KeepsLimits exec oid s₀ I)
    (hbreaks : ∀ {h₁ : List (Done ν)} {s s' : σ} {e x : Nat} {f : Bool} {r : Ret Unit},
      h₁.length < h.length → I h₁ s → 1 ≤ lastSeal h₁ → lastSeal h₁ ≤ e → x < 2 ^ 64 →
      TrimFullOk h₁ (.trim oid e x true f : Call ν _) → 2 ^ 63 ≤ x →
      exec _ s (.trim oid e x true f) r s' →
      ¬ LimitsKept exec oid (h₁ ++ [⟨.trim oid e x true f, r⟩]) s')
    (hrun : LimitRun exec oid s₀ h s)
    (hall : ∀ h₁ s₁, h₁ <+: h → LimitRun exec oid s₀ h₁ s₁ → LimitsKept exec oid h₁ s₁) :
    LimitsFit oid h := by
  -- along the run: the first limit that does not fit breaks the property
  induction hrun with
  | start =>
    intro e x f r hmem
    cases hmem
  | @call h s s' α c r' hrun hc hst hpos hok hexec ih =>
    have hpre : h <+: h ++ [(⟨c, r'⟩ : Done ν)] := List.prefix_append ..
    have hlen : h.length < (h ++ [(⟨c, r'⟩ : Done ν)]).length := by simp
    have hfit : LimitsFit oid h := ih (fun hlt => hbreaks (hlt.trans hlen))
      (fun h₁ s₁ hp => hall h₁ s₁ (hp.trans hpre))
    intro e x f r hmem
    -- a limit of the calls before
    rcases List.mem_append.mp hmem with hold | hnew
    · exact hfit e x f r hold
    · -- the limit of this call
      cases List.mem_singleton.mp hnew
      by_contra hge
      obtain ⟨hpos', hle⟩ := hst.entry e rfl
      refine hbreaks hlen (hk.invariant hrun hfit) hpos' hle (hpos x rfl) hok (by omega) hexec ?_
      exact hall _ _ (List.prefix_refl _) (.call _ _ hrun hc hst hpos hok hexec)

end KeepsLimits

/-! ## LMDB -/

namespace LMDBBackend

/-- A name is not its own prefix. -/
theorem append_ne_self (oid : String) {suffix : String} (h : suffix ≠ "") : oid ++ suffix ≠ oid := by
  intro heq
  have hlen := congrArg String.length heq
  rw [String.length_append] at hlen
  apply h
  apply String.length_eq_zero_iff.mp
  omega

/-- The record of an object is not that of its maximum. -/
theorem ne_maxPosKey (oid : String) : oid ≠ maxPosKey oid :=
  (append_ne_self oid (by decide)).symm

/-- The record of an object is not that of an entry. -/
theorem ne_logEntryKey (oid : String) (p : Nat) : oid ≠ logEntryKey oid p := by
  unfold logEntryKey
  rw [String.append_assoc]
  apply (append_ne_self oid _).symm
  intro h
  have hlen := congrArg String.length h
  rw [String.length_append] at hlen
  simp at hlen

/-- Storing an entry leaves the object's record. -/
@[simp] theorem get_putEntry (b : LMDBBackend ν) (oid : String) (p : Nat) (x : Record ν)
    (pos : Nat) : (b.putEntry oid p x pos).get oid = b.get oid := by
  rw [putEntry, get_put_of_ne _ (ne_logEntryKey oid p), get_put_of_ne _ (ne_maxPosKey oid)]

/-- `Write` leaves the object's record. -/
theorem get_write (b : LMDBBackend ν) (oid d : String) (e p : Nat) :
    (b.write oid d e p).2.get oid = b.get oid := by
  unfold write
  split
  · rfl
  · split
    · rfl
    · split
      · rfl
      · split
        · rfl
        · next b₁ hput =>
          obtain ⟨-, rfl⟩ := putNew_eq_some.mp hput
          rw [get_put_of_ne _ (ne_maxPosKey oid), get_put_of_ne _ (ne_logEntryKey oid p)]

/-- `Fill` leaves the object's record. -/
theorem get_fill (b : LMDBBackend ν) (oid : String) (e p : Nat) :
    (b.fill oid e p).2.get oid = b.get oid := by
  unfold fill
  split
  · rfl
  · split
    · rfl
    · split
      · split
        · rfl
        · split <;> rfl
      · rfl
      · split
        · rfl
        · exact get_putEntry ..

/-- Trimming one position leaves the object's record. -/
theorem get_trimEntry {b b' : LMDBBackend ν} {oid : String} {p : Nat}
    (h : b.trimEntry oid p = .ok b') : b'.get oid = b.get oid := by
  unfold trimEntry at h
  split at h
  · split at h <;> cases h
    exact get_putEntry ..
  · split at h
    · cases h
    · split at h <;> cases h
      exact get_putEntry ..
  · cases h

/-- The checks pass on an object whose epoch is not past the caller's. -/
theorem checkIo_of_get {b : LMDBBackend ν} {oid : String} (hne : oid ≠ "") {current e : Nat}
    {i : Int} (hget : b.get oid = some (.log current i)) (hpos : 1 ≤ current) (hle : current ≤ e) :
    b.checkIo oid e = .ok (current, i) := by
  have he : e ≠ 0 := by omega
  have hst : ¬ e < current := by omega
  simp [checkIo, checkEpoch, hne, he, hget, hst]

/-- The limit field after a trim at `x`. -/
def raisedLimit (i : Int) (x : Nat) : Int :=
  if 0 ≤ i then toInt64 (max x (toUInt64 i)) else toInt64 x

/-- A limit that fits is stored as it is. -/
theorem raisedLimit_agrees {t : Option Nat} {i : Int} (h : LimitAgrees t i) {x : Nat}
    (hx : x < 2 ^ 63) : LimitAgrees (some (raiseMax t x)) (raisedLimit i x) := by
  have hr := LimitAgrees.raise (o := { trimLimit := t }) h hx
  rwa [LogObject.trimLimit_raise] at hr

/-- A limit that does not fit leaves the object without one. -/
theorem raisedLimit_neg {t : Option Nat} {i : Int} (h : LimitAgrees t i) {x : Nat}
    (hge : 2 ^ 63 ≤ x) (hlt : x < 2 ^ 64) : raisedLimit i x < 0 := by
  have hneg : toInt64 x < 0 := by
    unfold toInt64
    rw [Int.bmod_def]
    omega
  unfold raisedLimit
  cases h with
  | none =>
    rw [if_neg (by omega)]
    exact hneg
  | some n hn =>
    have hmax : max x n = x := max_eq_left (by omega)
    rw [if_pos (Int.natCast_nonneg n), toUInt64_of_lt hn, hmax]
    exact hneg

/-- A stored limit that fits covers what is below it. -/
theorem below_of_agrees {n : Nat} {i : Int} (h : LimitAgrees (some n) i) {q : Nat} (hq : q ≤ n) :
    belowTrimLimit i q = true := by
  cases h with
  | some n hn => simp [belowTrimLimit, toUInt64_of_lt hn, hq]

/-- A negative limit covers nothing. -/
theorem below_of_neg {i : Int} (h : i < 0) (q : Nat) : belowTrimLimit i q = false := by
  simp [belowTrimLimit, h]

/-- A trim with a limit, on an object that accepts the epoch. -/
theorem trim_limit {b : LMDBBackend ν} {oid : String} {e : Nat} {current : Nat} {i : Int}
    (hio : b.checkIo oid e = .ok (current, i)) (x : Nat) (f : Bool) :
    b.trim oid e x true f =
      if f then (.ok (), ((b.put oid (.log current (raisedLimit i x))).getAll
        (oid ++ ".entry.")).foldl delete (b.put oid (.log current (raisedLimit i x))))
      else if belowTrimLimit (raisedLimit i x) x then
        (.ok (), b.put oid (.log current (raisedLimit i x)))
      else (.error .assertion, b) := by
  unfold trim
  rw [hio]
  cases f
  · simp only [raisedLimit, Bool.false_and, Bool.false_eq_true, if_false, if_true]
    rfl
  · simp only [raisedLimit, Bool.not_true, Bool.and_false, Bool.false_eq_true, if_false, if_true]

/-- The object record is not below the directory of its entries. -/
theorem get_deleteEntries (b : LMDBBackend ν) (oid : String) :
    ((b.getAll (oid ++ ".entry.")).foldl delete b).get oid = b.get oid := by
  rw [get_foldl_delete, if_neg]
  intro hmem
  have hstart := (List.mem_filter.mp hmem).2
  have hlen : (".entry." : String).toList.length = 7 := by decide
  simp only [startsWith, String.toList_append, List.length_append, hlen, Bool.and_eq_true,
    decide_eq_true_eq] at hstart
  omega

/-- A prefix is compared equal. -/
theorem strncmpEq_append (s t : List Char) : strncmpEq s.length (s ++ t) s = true := by
  induction s with
  | nil => simp [strncmpEq]
  | cons c cs ih => simp [strncmpEq, ih]

/-- No entry is left after the scan. -/
theorem get_deleteEntries_entry' (b : LMDBBackend ν) (oid : String) (p : Nat) :
    ((b.getAll (oid ++ ".entry.")).foldl delete b).get (logEntryKey oid p) = none := by
  rw [get_foldl_delete]
  split
  · rfl
  · next hmem =>
    apply AList.lookup_eq_none.mpr
    intro hkey
    apply hmem
    apply List.mem_filter.mpr
    refine ⟨AList.mem_keys.mp hkey, ?_⟩
    have hstart := strncmpEq_append (oid ++ ".entry.").toList (toString p).toList
    simp only [startsWith, logEntryKey, String.toList_append, List.length_append,
      Bool.and_eq_true, decide_eq_true_eq] at hstart ⊢
    exact ⟨by omega, hstart⟩

/-- What the database holds of an object after the calls `h`: its record carries the epoch of the
    last seal and the largest limit. -/
structure StoresLimit (oid : String) (h : List (Done ν)) (b : LMDBBackend ν) : Prop where
  absent : lastSeal h = 0 → largestLimit h = none ∧ b.get oid = none
  present : 1 ≤ lastSeal h → ∃ i, b.get oid = some (.log (lastSeal h) i) ∧
    LimitAgrees (largestLimit h) i

/-- Without a limit the object's record stays, whatever else is trimmed. -/
theorem get_trim_single (b : LMDBBackend ν) (oid : String) (e p : Nat) (f : Bool) :
    (b.trim oid e p false f).2.get oid = b.get oid := by
  cases hio : b.checkIo oid e with
  -- the object is missing, or the epoch is old
  | error err => cases f <;> simp [trim, hio]
  | ok o =>
    -- the record is put again as it was
    obtain ⟨current, i⟩ := o
    have hget : b.get oid = some (.log current i) := by
      unfold checkIo checkEpoch at hio
      grind
    have hput : (b.put oid (.log current i)).get oid = b.get oid := by
      rw [get_put_self, hget]
    cases f with
    | true => simp [trim]
    | false =>
      simp only [trim, hio, Bool.false_and, Bool.false_eq_true, if_false]
      split
      · exact hput
      · split
        · rfl
        · next b₂ hentry => rw [get_trimEntry hentry, hput]

namespace StoresLimit

variable {oid : String} {h : List (Done ν)} {b : LMDBBackend ν}

/-- An object that is not there has no limit. -/
theorem of_free (hfree : b.get oid = none) : StoresLimit oid [] b :=
  ⟨fun _ => ⟨rfl, hfree⟩, fun hpos => absurd hpos (by simp [lastSeal])⟩

/-- A call that leaves the object record alone. -/
theorem same (hs : StoresLimit oid h b) {b' : LMDBBackend ν} {d : Done ν}
    (hseal : d.call.sealsFor = none) (hlimit : d.call.limit = none)
    (hget : b'.get oid = b.get oid) : StoresLimit oid (h ++ [d]) b' := by
  have hlast : lastSeal (h ++ [d]) = lastSeal h := by simp [hseal]
  have hlargest : largestLimit (h ++ [d]) = largestLimit h := by simp [nextLimit, hlimit]
  refine ⟨?_, ?_⟩
  · rw [hlast, hlargest, hget]
    exact hs.absent
  · rw [hlast, hlargest, hget]
    exact hs.present

/-- A call that stores the object record. -/
theorem stored {b' : LMDBBackend ν} {d : Done ν} {i : Int} (hpos : 1 ≤ lastSeal (h ++ [d]))
    (hget : b'.get oid = some (.log (lastSeal (h ++ [d])) i))
    (hagree : LimitAgrees (largestLimit (h ++ [d])) i) : StoresLimit oid (h ++ [d]) b' :=
  ⟨fun h0 => absurd hpos (by omega), fun _ => ⟨i, hget, hagree⟩⟩

/-- `Seal` sets the epoch and keeps the limit. -/
theorem «seal» (hs : StoresLimit oid h b) (hne : oid ≠ "") {e : Nat} (hlt : lastSeal h < e) :
    StoresLimit oid (h ++ [⟨.seal oid e, (b.seal oid e).1⟩]) (b.seal oid e).2 := by
  have he : e ≠ 0 := by omega
  have hlast : lastSeal (h ++ [⟨.seal oid e, (b.seal oid e).1⟩]) = e := by simp [Call.sealsFor]
  have hlargest : largestLimit (h ++ [⟨.seal oid e, (b.seal oid e).1⟩]) = largestLimit h := by
    simp [nextLimit, Call.limit]
  -- the first seal of the object: there is no limit
  rcases Nat.eq_zero_or_pos (lastSeal h) with h0 | hpos
  · obtain ⟨hnone, hget⟩ := hs.absent h0
    apply stored (i := -1)
    · omega
    · rw [hlast]
      simp [LMDBBackend.seal, hne, he, hget, get_put_self]
    · rw [hlargest, hnone]
      exact .none
  · -- a later one: the limit is copied
    obtain ⟨i, hget, hagree⟩ := hs.present hpos
    have hst : ¬ e ≤ lastSeal h := by omega
    apply stored (i := i)
    · omega
    · rw [hlast]
      simp [LMDBBackend.seal, hne, he, hget, hst, get_put_self]
    · rwa [hlargest]

/-- A trim whose limit fits is accepted and stored. -/
theorem limit (hs : StoresLimit oid h b) (hne : oid ≠ "") {e x : Nat} (f : Bool)
    (hpos : 1 ≤ lastSeal h) (hle : lastSeal h ≤ e) (hx : x < 2 ^ 63) :
    (b.trim oid e x true f).1 = .ok () ∧
    StoresLimit oid (h ++ [⟨.trim oid e x true f, (b.trim oid e x true f).1⟩])
      (b.trim oid e x true f).2 := by
  obtain ⟨i, hget, hagree⟩ := hs.present hpos
  have hraised := raisedLimit_agrees hagree hx
  have hbelow := below_of_agrees hraised (le_raiseMax _ x)
  rw [trim_limit (checkIo_of_get hne hget hpos hle), if_pos hbelow]
  have hstored : ∀ (b' : LMDBBackend ν) (r : Ret Unit),
      b'.get oid = some (.log (lastSeal h) (raisedLimit i x)) →
      StoresLimit oid (h ++ [⟨.trim oid e x true f, r⟩]) b' := by
    -- the limit of the history is the one in the record
    intro b' r hget'
    have hlast : lastSeal (h ++ [⟨.trim oid e x true f, r⟩]) = lastSeal h := by
      simp [Call.sealsFor]
    apply stored (i := raisedLimit i x)
    · rwa [hlast]
    · rwa [hlast]
    · simpa [nextLimit, Call.limit] using hraised
  cases f with
  -- a full trim deletes the entries, not the object's record
  | true => exact ⟨rfl, hstored _ _ (by rw [if_pos rfl, get_deleteEntries, get_put_self])⟩
  | false => exact ⟨rfl, hstored _ _ (by rw [if_neg (by simp), get_put_self])⟩

/-- **Step lemma**: a call whose limit fits keeps the record right. -/
theorem exec (hs : StoresLimit oid h b) (hne : oid ≠ "") {α : Type} {c : Call ν α}
    (hc : OnObject oid c) (hst : NotStale (lastSeal h) c)
    (hfit : ∀ x, c.limit = some x → x < 2 ^ 63) :
    StoresLimit oid (h ++ [⟨c, (b.exec c).1⟩]) (b.exec c).2 := by
  cases hc with
  | «seal» e => exact hs.seal hne (hst.seals e rfl)
  | read e p => exact hs.same rfl rfl rfl
  | write d e p => exact hs.same rfl rfl (get_write b oid d e p)
  | fill e p => exact hs.same rfl rfl (get_fill b oid e p)
  | trim e p l f =>
    cases l with
    | false => exact hs.same rfl rfl (get_trim_single b oid e p f)
    | true =>
      obtain ⟨hpos, hle⟩ := hst.entry e rfl
      exact (hs.limit hne f hpos hle (hfit p rfl)).2
  | maxPos => exact hs.same rfl rfl rfl

/-- What the largest limit covers is refused. -/
theorem trimmed (hs : StoresLimit oid h b) (hne : oid ≠ "") {x n : Nat}
    (hn : largestLimit h = some n) (hx : x ≤ n) :
    Trimmed LMDBBackend.executes oid (lastSeal h) b x := by
  intro q hq e' he'
  have hpos : 1 ≤ lastSeal h := by
    rcases Nat.eq_zero_or_pos (lastSeal h) with h0 | hpos
    · rw [(hs.absent h0).1] at hn
      cases hn
    · exact hpos
  obtain ⟨i, hget, hagree⟩ := hs.present hpos
  have hio := checkIo_of_get hne hget hpos he'
  have hbelow : belowTrimLimit i q = true := below_of_agrees (hn ▸ hagree) (hq.trans hx)
  refine ⟨?_, ?_⟩
  · -- a read of `q`
    intro r b' hexec
    have hr : b.read oid e' q = r := congrArg Prod.fst hexec
    rw [← hr, read, hio]
    simp [hbelow]
  · -- a write to `q`
    intro d r b' hexec
    have hr : (b.write oid d e' q).1 = r := congrArg Prod.fst hexec
    rw [← hr, write, hio]
    simp [hbelow]

/-- A limit that does not fit trips the assertion, or leaves the emptied object readable. -/
theorem breaks (hs : StoresLimit oid h b) (hne : oid ≠ "") {e x : Nat} {f : Bool} {r : Ret Unit}
    {b' : LMDBBackend ν} (hpos : 1 ≤ lastSeal h) (hle : lastSeal h ≤ e) (hge : 2 ^ 63 ≤ x)
    (hlt : x < 2 ^ 64) (hexec : LMDBBackend.executes _ b (.trim oid e x true f) r b') :
    ¬ LimitsKept LMDBBackend.executes oid (h ++ [⟨.trim oid e x true f, r⟩]) b' := by
  intro hkept
  obtain ⟨i, hget, hagree⟩ := hs.present hpos
  -- a limit of 2^63 and more is stored as a negative number
  have hneg := raisedLimit_neg hagree hge hlt
  obtain ⟨hr, htrimmed⟩ := hkept e x f r (by simp)
  have hlast : lastSeal (h ++ [⟨.trim oid e x true f, r⟩]) = lastSeal h := by
    simp [Call.sealsFor]
  rw [hlast] at htrimmed
  have hrun : b.trim oid e x true f = (r, b') := hexec
  rw [trim_limit (checkIo_of_get hne hget hpos hle), below_of_neg hneg] at hrun
  cases f with
  -- `assert(position <= trim_limit)` fails
  | false =>
    rw [if_neg (by simp), if_neg (by simp)] at hrun
    cases hrun
    cases hr
  -- the entries are deleted, and the read finds no limit that covers `x`
  | true =>
    rw [if_pos rfl] at hrun
    cases hrun
    have hread := (htrimmed x le_rfl (lastSeal h) le_rfl).1 _ _ rfl
    change LMDBBackend.read _ oid (lastSeal h) x = _ at hread
    rw [read, checkIo_of_get hne (by rw [get_deleteEntries, get_put_self]) hpos le_rfl] at hread
    simp [below_of_neg hneg, get_deleteEntries_entry'] at hread

end StoresLimit

/-- LMDB stores the largest limit. -/
theorem keepsLimits {oid : String} (hne : oid ≠ "") {b₀ : LMDBBackend ν}
    (hfree : b₀.get oid = none) :
    KeepsLimits LMDBBackend.executes oid b₀ (StoresLimit oid) where
  start := .of_free hfree
  step := by
    intro h b b' α c r hs hc hst _ _ hfit hexec
    obtain rfl : (b.exec c).1 = r := congrArg Prod.fst hexec
    obtain rfl : (b.exec c).2 = b' := congrArg Prod.snd hexec
    exact hs.exec hne hc hst hfit
  accepts := by
    intro h b b' e x f r hs hpos hle _ hx hexec
    rw [← (hs.limit hne f hpos hle hx).1]
    exact (congrArg Prod.fst hexec).symm
  refuses := fun hs hn hx => hs.trimmed hne hn hx

end LMDBBackend

/-! ## The object class -/

namespace Cls

/-- What an object holds: a header with the epoch `e` and the limit `t`, and entries of the
    positions in `T`. -/
structure HoldsLimit (e : Nat) (t : Option Nat) (T : List Nat) (obj : RadosObject ν) : Prop where
  header : ∃ header, LogObjectHeader.read (some obj) = .ok header ∧ header.epoch = e ∧
    header.trimLimit = t
  fits : ∀ n, t = some n → n < 2 ^ 63
  keys : ∀ kv ∈ obj.omap.toList, ∃ q ∈ T, kv.1 = entryKey q

namespace HoldsLimit

variable {e : Nat} {t : Option Nat} {T T' : List Nat} {obj obj' : RadosObject ν}

/-- More positions may count as touched. -/
theorem mono (hk : HoldsLimit e t T obj) (hT : ∀ q ∈ T, q ∈ T') : HoldsLimit e t T' obj := by
  refine ⟨hk.header, hk.fits, ?_⟩
  intro kv hkv
  obtain ⟨q, hq, hkey⟩ := hk.keys kv hkv
  exact ⟨q, hT q hq, hkey⟩

/-- Storing an entry and the header that its position changed. -/
theorem store (hk : HoldsLimit e t T obj) {header : LogObjectHeader}
    (hread : LogObjectHeader.read (some obj) = .ok header) (hdata : obj'.dataHeader = obj.dataHeader)
    (homap : obj'.omap = obj.omap) (entry : LogEntry) (p : Nat) :
    HoldsLimit e t (T ++ [p])
      (LogObjectHeader.writeIf (header.updateMaxPos p) (entry.write obj' p)) := by
  -- the header: the epoch and the limit stay
  obtain ⟨header', hread', hepoch, hlimit⟩ := hk.header
  cases hread.symm.trans hread'
  obtain ⟨hepoch', hlimit', hsame⟩ := LogObjectHeader.updateMaxPos_eq header p
  have hread₁ : LogObjectHeader.read (some (entry.write obj' p)) = .ok header := by
    rw [← hread]
    unfold LogObjectHeader.read LogEntry.write
    simp only [hdata]
  refine ⟨⟨_, LogObjectHeader.read_writeIf hread₁ hsame ?_, ?_, ?_⟩, hk.fits, ?_⟩
  · rw [hlimit', hlimit]
    exact hk.fits
  · rw [hepoch', hepoch]
  · rw [hlimit', hlimit]
  · -- the keys: the new one, and those before
    intro kv hkv
    rw [LogObjectHeader.omap_writeIf] at hkv
    rcases Lib.OrderedMap.mem_set.mp hkv with rfl | ⟨hkv, -⟩
    · exact ⟨p, by simp, rfl⟩
    · rw [homap] at hkv
      obtain ⟨q, hq, hkey⟩ := hk.keys kv hkv
      exact ⟨q, List.mem_append_left _ hq, hkey⟩

/-- Where the payload goes is no business of the header. -/
theorem setData_eq (entry : LogEntry) (obj : RadosObject ν) (data : String) (size : Option Nat) :
    (entry.setData obj data size).2.dataHeader = obj.dataHeader ∧
      (entry.setData obj data size).2.omap = obj.omap := by
  unfold LogEntry.setData
  cases size with
  | none => exact ⟨rfl, rfl⟩
  | some size =>
    by_cases hle : size ≤ data.toList.length
    · simp [hle]
    · simp [hle]

/-- `log_entry_write` keeps what the object holds. -/
theorem write (hk : HoldsLimit e t T obj) {epoch p : Nat} {data : String} {junk : Indeterminate}
    (h : logEntryWrite epoch p data junk (some obj) = .ok obj') : HoldsLimit e t (T ++ [p]) obj' := by
  obtain ⟨header, hguard, -, -, rfl⟩ := logEntryWrite_ok h
  obtain ⟨hdata, homap⟩ := setData_eq (.fresh junk) obj data header.omapMaxSize
  exact hk.store hguard.read hdata homap _ p

/-- `log_entry_invalidate` without a limit keeps what the object holds. -/
theorem invalidate (hk : HoldsLimit e t T obj) {epoch p : Nat} {force : Bool} {junk : Indeterminate}
    (h : logEntryInvalidate epoch p force false junk (some obj) = .ok obj') :
    HoldsLimit e t (T ++ [p]) obj' := by
  obtain ⟨header, hguard, ⟨rfl, -⟩ | ⟨entry, -, -, -, rfl⟩⟩ := logEntryInvalidate_ok h
  · exact hk.mono (fun q hq => List.mem_append_left _ hq)
  · exact hk.store hguard.read rfl rfl _ p

/-- Raising the limit leaves the epoch. -/
theorem updateTrimLimit_eq (header : LogObjectHeader) (x : Nat) :
    (header.updateTrimLimit x).2.epoch = header.epoch ∧
    (header.updateTrimLimit x).2.trimLimit = some (raiseMax header.trimLimit x) ∧
    ((header.updateTrimLimit x).1 = false → (header.updateTrimLimit x).2 = header) := by
  obtain ⟨hepoch, hlimit, -⟩ :=
    LogObjectHeader.updateMaxPos_eq { header with trimLimit := some x } x
  unfold LogObjectHeader.updateTrimLimit
  cases hl : header.trimLimit with
  | none => exact ⟨hepoch, hlimit, by simp⟩
  | some n =>
    by_cases hn : n < x
    · simp only [hn, if_true]
      refine ⟨hepoch, ?_, by simp⟩
      rw [hlimit]
      simp [raiseMax, max_eq_right (le_of_lt hn)]
    · simp only [hn, if_false, hl]
      exact ⟨trivial, by simp [raiseMax, max_eq_left (not_lt.mp hn)], by simp⟩

/-- Raising the limit to one that fits. -/
theorem limit (hk : HoldsLimit e t T obj) {header : LogObjectHeader}
    (hread : LogObjectHeader.read (some obj) = .ok header) {x : Nat} (hx : x < 2 ^ 63) :
    HoldsLimit e (some (raiseMax t x)) T (LogObjectHeader.writeIf (header.updateTrimLimit x) obj) := by
  obtain ⟨header', hread', hepoch, hlimit⟩ := hk.header
  cases hread.symm.trans hread'
  obtain ⟨hepoch', hlimit', hsame⟩ := updateTrimLimit_eq header x
  -- the greater of two limits that fit
  have hfits : ∀ n, some (raiseMax t x) = some n → n < 2 ^ 63 := by
    intro n hn
    cases hn
    unfold raiseMax
    split
    · exact hx
    · next m => exact max_lt (hk.fits m rfl) hx
  rw [hlimit] at hlimit'
  refine ⟨⟨_, LogObjectHeader.read_writeIf hread hsame ?_, hepoch'.trans hepoch, hlimit'⟩,
    hfits, ?_⟩
  · rw [hlimit']
    exact hfits
  · rw [LogObjectHeader.omap_writeIf]
    exact hk.keys

/-- A seal keeps everything but the epoch. -/
theorem «seal» (hk : HoldsLimit e t T obj) {epoch : Nat} {size : Int} {junk : Indeterminate}
    (h : logEntrySeal epoch size junk (some obj) = .ok obj') : HoldsLimit epoch t T obj' := by
  obtain ⟨header', hread', -, hlimit⟩ := hk.header
  obtain ⟨-, ⟨hnone, -⟩ | ⟨old, header, hobj, hread, -, rfl⟩⟩ := logEntrySeal_ok h
  · cases hnone
  · cases hobj
    cases hread.symm.trans hread'
    refine ⟨⟨_, LogObjectHeader.read_write ?_ obj, rfl, hlimit⟩, hk.fits, hk.keys⟩
    intro n hn
    exact hk.fits n (hlimit.symm.trans hn)

/-- The first seal makes an object without a limit. -/
theorem seal_new {epoch : Nat} {size : Int} {junk : Indeterminate} {obj : RadosObject ν}
    (h : logEntrySeal epoch size junk none = .ok obj) : HoldsLimit epoch none T obj := by
  obtain ⟨-, ⟨-, rfl⟩ | ⟨old, header, hobj, -⟩⟩ := logEntrySeal_ok h
  · refine ⟨⟨_, LogObjectHeader.read_write (by simp [LogObjectHeader.new]) _, rfl, rfl⟩, by simp, ?_⟩
    intro kv hkv
    cases hkv
  · cases hobj

end HoldsLimit

end Cls

/-! ## Ceph -/

namespace CephBackend

/-- What the pool holds of an object after the calls `h`. -/
structure StoresLimit (oid : String) (h : List (Done ν)) (pool : Pool ν) : Prop where
  absent : lastSeal h = 0 → largestLimit h = none ∧ pool.lookup oid = none
  present : 1 ≤ lastSeal h → ∃ obj, pool.lookup oid = some obj ∧
    HoldsLimit (lastSeal h) (largestLimit h) (touched h) obj
  bound : ∀ q ∈ touched h, q < 2 ^ 64

namespace StoresLimit

variable {oid : String} {h : List (Done ν)} {pool : Pool ν}

/-- An object that is not there has no limit. -/
theorem of_free (hfree : pool.lookup oid = none) : StoresLimit oid [] pool :=
  ⟨fun _ => ⟨rfl, hfree⟩, fun hpos => absurd hpos (by simp [lastSeal]), by simp [touched]⟩

/-- A call that was refused or only reads. -/
theorem same (hs : StoresLimit oid h pool) {d : Done ν} (hseal : d.call.sealsFor = none)
    (hlimit : d.call.limit = none) (htouch : d.touches = none) :
    StoresLimit oid (h ++ [d]) pool := by
  have hlast : lastSeal (h ++ [d]) = lastSeal h := by simp [hseal]
  have hlargest : largestLimit (h ++ [d]) = largestLimit h := by simp [nextLimit, hlimit]
  have htouched : touched (h ++ [d]) = touched h := by simp [htouch]
  refine ⟨?_, ?_, ?_⟩
  · rw [hlast, hlargest]
    exact hs.absent
  · rw [hlast, hlargest, htouched]
    exact hs.present
  · rw [htouched]
    exact hs.bound

/-- A call that stored the object. -/
theorem stored (hs : StoresLimit oid h pool) {pool' : Pool ν} {d : Done ν} {obj : RadosObject ν}
    (hpos : 1 ≤ lastSeal (h ++ [d])) (hobj : pool'.lookup oid = some obj)
    (hholds : HoldsLimit (lastSeal (h ++ [d])) (largestLimit (h ++ [d])) (touched (h ++ [d])) obj)
    (htouch : ∀ q, d.touches = some q → q < 2 ^ 64) : StoresLimit oid (h ++ [d]) pool' := by
  refine ⟨fun h0 => absurd hpos (by omega), fun _ => ⟨obj, hobj, hholds⟩, ?_⟩
  intro q hq
  rw [touched_append] at hq
  rcases List.mem_append.mp hq with hq | hq
  · exact hs.bound q hq
  · exact htouch q (Option.mem_toList.mp hq)

/-- A call that touches a position by one class method. -/
theorem touch (hs : StoresLimit oid h pool) {c : Call ν (Ret Unit)} {p : Nat}
    {method : Option (RadosObject ν) → Ret (RadosObject ν)} (hpos : 1 ≤ lastSeal h)
    (hp : p < 2 ^ 64) (hseal : c.sealsFor = none) (hlimit : c.limit = none)
    (hok : Done.touches ⟨c, .ok ()⟩ = some p)
    (herror : ∀ e, Done.touches ⟨c, .error e⟩ = none)
    (hmethod : ∀ {obj obj' : RadosObject ν}, HoldsLimit (lastSeal h) (largestLimit h) (touched h) obj →
      method (some obj) = .ok obj' →
      HoldsLimit (lastSeal h) (largestLimit h) (touched h ++ [p]) obj') :
    StoresLimit oid (h ++ [⟨c, (pool.operate oid method).1⟩]) (pool.operate oid method).2 := by
  -- the method fails and nothing changes, or it touches `p`
  rcases pool.operate_cases oid method with ⟨e, -, heq⟩ | ⟨obj', hrun, heq⟩
  · rw [heq]
    exact hs.same hseal hlimit (herror e)
  · obtain ⟨obj, hobj, hholds⟩ := hs.present hpos
    rw [hobj] at hrun
    rw [heq]
    have hlast : lastSeal (h ++ [⟨c, .ok ()⟩]) = lastSeal h := by simp [hseal]
    have hlargest : largestLimit (h ++ [⟨c, .ok ()⟩]) = largestLimit h := by
      simp [nextLimit, hlimit]
    have htouched : touched (h ++ [⟨c, .ok ()⟩]) = touched h ++ [p] := by simp [hok]
    refine hs.stored ?_ (AList.lookup_insert _) ?_ ?_
    · rwa [hlast]
    · rw [hlast, hlargest, htouched]
      exact hmethod hholds hrun
    · intro q hq
      cases hok.symm.trans hq
      exact hp

/-- `Seal` sets the epoch and keeps the limit. -/
theorem «seal» (hs : StoresLimit oid h pool) (be : CephBackend) (hne : oid ≠ "") {e : Nat}
    (hlt : lastSeal h < e) :
    StoresLimit oid (h ++ [⟨.seal oid e, (be.seal pool oid e).1⟩]) (be.seal pool oid e).2 := by
  have hop : be.seal pool oid e = pool.operate oid (logEntrySeal e be.sealSize be.junk) := by
    simp only [CephBackend.seal, hne, if_false]
  have hlast : ∀ r : Ret Unit, lastSeal (h ++ [⟨.seal oid e, r⟩]) = e := by
    intro r
    simp [Call.sealsFor]
  have hlargest : ∀ r : Ret Unit, largestLimit (h ++ [⟨.seal oid e, r⟩]) = largestLimit h := by
    intro r
    simp [nextLimit, Call.limit]
  have htouched : ∀ r : Ret Unit, touched (h ++ [⟨.seal oid e, r⟩]) = touched h := by
    intro r
    simp [Done.touches]
  -- the seal is not refused: the object is new, or its epoch is behind
  have hrun : ∃ obj, logEntrySeal e be.sealSize be.junk (pool.lookup oid) = .ok obj ∧
      HoldsLimit e (largestLimit h) (touched h) obj := by
    rcases Nat.eq_zero_or_pos (lastSeal h) with h0 | hpos
    · obtain ⟨hnone, hobj⟩ := hs.absent h0
      have hnew : logEntrySeal e be.sealSize be.junk (pool.lookup oid) =
          .ok ({ LogObjectHeader.new be.junk e with omapMaxSize_ := be.sealSize }.write {}) := by
        simp [logEntrySeal, hobj, LogObjectHeader.read, show ¬ e < 1 by omega]
      refine ⟨_, hnew, ?_⟩
      rw [hnone]
      rw [hobj] at hnew
      exact .seal_new hnew
    · obtain ⟨obj, hobj, hholds⟩ := hs.present hpos
      obtain ⟨header, hread, hepoch, -⟩ := hholds.header
      have hold : logEntrySeal e be.sealSize be.junk (pool.lookup oid) =
          .ok ({ header with omapMaxSize_ := be.sealSize, epoch := e }.write obj) := by
        simp [logEntrySeal, hobj, hread, show ¬ e < 1 by omega, show ¬ e ≤ header.epoch by omega]
      refine ⟨_, hold, ?_⟩
      rw [hobj] at hold
      exact hholds.seal hold
  obtain ⟨obj, hseal, hholds⟩ := hrun
  rw [hop, Pool.operate_ok hseal]
  refine hs.stored ?_ (AList.lookup_insert _) ?_ ?_
  · rw [hlast]
    omega
  · rw [hlast, hlargest, htouched]
    exact hholds
  · intro q hq
    cases hq

/-- The object after a trim with a limit, whether or not the limit fits. -/
theorem trim_limit (hs : StoresLimit oid h pool) (be : CephBackend) (hne : oid ≠ "")
    {e x : Nat} {f : Bool} {obj : RadosObject ν} {header : LogObjectHeader}
    (hobj : pool.lookup oid = some obj)
    (hholds : HoldsLimit (lastSeal h) (largestLimit h) (touched h) obj)
    (hguard : Guarded obj e header) (hok : TrimFullOk h (.trim oid e x true f : Call ν _)) :
    ∃ pool', be.trim pool oid e x true f = (.ok (), pool') ∧
      pool'.lookup oid = some
        (if f then { LogObjectHeader.writeIf (header.updateTrimLimit x) obj with
            omap := .empty, bytes := [] }
        else LogObjectHeader.writeIf (header.updateTrimLimit x) obj) := by
  have hlimit : logEntryInvalidate e x true true be.junk (some obj) =
      .ok (LogObjectHeader.writeIf (header.updateTrimLimit x) obj) :=
    guard_eq_ok.mpr ⟨header, hguard, rfl⟩
  -- a range trim is one operation
  cases f with
  | false =>
    have hop : pool.operate oid (logEntryInvalidate e x true true be.junk) = _ :=
      Pool.operate_ok (hobj ▸ hlimit)
    refine ⟨pool.insert oid (LogObjectHeader.writeIf (header.updateTrimLimit x) obj), ?_,
      AList.lookup_insert _⟩
    simp [CephBackend.trim, hne, hop]
  -- a full trim goes on with the entries, which all belong to positions at or below `x`
  | true =>
    obtain ⟨pool', hrun, hobj', -⟩ := trim_full_ok be hobj hne hlimit (by
      intro kv hkv
      rw [LogObjectHeader.omap_writeIf] at hkv
      obtain ⟨q, hq, hkey⟩ := hholds.keys kv hkv
      exact ⟨q, hkey, hs.bound q hq, hok q hq⟩)
    exact ⟨pool', hrun, by rw [hobj', if_pos rfl]⟩

/-- A trim whose limit fits is accepted and stored. -/
theorem limit (hs : StoresLimit oid h pool) (be : CephBackend) (hne : oid ≠ "") {e x : Nat}
    {f : Bool} (hpos : 1 ≤ lastSeal h) (hle : lastSeal h ≤ e)
    (hok : TrimFullOk h (.trim oid e x true f : Call ν _)) (hx : x < 2 ^ 63) :
    (be.trim pool oid e x true f).1 = .ok () ∧
    StoresLimit oid (h ++ [⟨.trim oid e x true f, (be.trim pool oid e x true f).1⟩])
      (be.trim pool oid e x true f).2 := by
  obtain ⟨obj, hobj, hholds⟩ := hs.present hpos
  obtain ⟨header, hread, hepoch, -⟩ := hholds.header
  obtain ⟨pool', hrun, hobj'⟩ := hs.trim_limit be hne hobj hholds
    ⟨hread, by omega, by omega⟩ hok
  rw [hrun]
  refine ⟨rfl, ?_⟩
  have hlast : lastSeal (h ++ [⟨.trim oid e x true f, .ok ()⟩]) = lastSeal h := by
    simp [Call.sealsFor]
  -- the limit of the history is the one in the header
  have hlargest : largestLimit (h ++ [⟨.trim oid e x true f, .ok ()⟩]) =
      some (raiseMax (largestLimit h) x) := by
    simp [nextLimit, Call.limit]
  have htouched : touched (h ++ [⟨.trim oid e x true f, .ok ()⟩]) = touched h := by
    simp [Done.touches]
  have hholds' := hholds.limit hread hx
  refine hs.stored (by rwa [hlast]) hobj' ?_ (by simp [Done.touches])
  rw [hlast, hlargest, htouched]
  cases f with
  | false => exact hholds'
  -- the omap is empty now
  | true =>
    refine ⟨hholds'.header, hholds'.fits, ?_⟩
    intro kv hkv
    cases hkv

/-- **Step lemma**: a call whose limit fits keeps the object right. -/
theorem exec (hs : StoresLimit oid h pool) (be : CephBackend) (hne : oid ≠ "") {α : Type}
    {c : Call ν α} (hc : OnObject oid c) (hst : NotStale (lastSeal h) c)
    (hposition : ∀ p, c.position = some p → p < 2 ^ 64) (hok : TrimFullOk h c)
    (hfit : ∀ x, c.limit = some x → x < 2 ^ 63) :
    StoresLimit oid (h ++ [⟨c, (be.exec pool c).1⟩]) (be.exec pool c).2 := by
  cases hc with
  | «seal» e => exact hs.seal be hne (hst.seals e rfl)
  -- a read changes nothing
  | read e p =>
    apply hs.same rfl rfl
    rfl
  -- a write, a fill and a single trim touch their position
  | write d e p =>
    have hop : be.exec pool (.write oid d e p : Call ν _) =
        pool.operate oid (logEntryWrite e p d be.junk) := by
      simp only [CephBackend.exec, CephBackend.write, hne, if_false]
    rw [hop]
    exact hs.touch (hst.entry e rfl).1 (hposition p rfl) rfl rfl rfl (fun _ => rfl)
      (fun hk hrun => hk.write hrun)
  | fill e p =>
    have hop : be.exec pool (.fill oid e p : Call ν _) =
        pool.operate oid (logEntryInvalidate e p false false be.junk) := by
      simp only [CephBackend.exec, CephBackend.fill, hne, if_false]
    rw [hop]
    exact hs.touch (hst.entry e rfl).1 (hposition p rfl) rfl rfl rfl (fun _ => rfl)
      (fun hk hrun => hk.invalidate hrun)
  | trim e p l f =>
    -- a range trim raises the limit
    cases l with
    | true =>
      obtain ⟨hpos, hle⟩ := hst.entry e rfl
      exact (hs.limit be hne hpos hle hok (hfit p rfl)).2
    | false =>
      cases f with
      | true =>
        apply hs.same rfl rfl
        rfl
      | false =>
        have hop : be.exec pool (.trim oid e p false false : Call ν _) =
            pool.operate oid (logEntryInvalidate e p true false be.junk) := by
          simp only [CephBackend.exec, CephBackend.trim, hne, Bool.false_and, Bool.false_eq_true,
            if_false, Bool.not_false, if_true]
          split <;> next heq => rw [heq]
        rw [hop]
        exact hs.touch (hst.entry e rfl).1 (hposition p rfl) rfl rfl rfl (fun _ => rfl)
          (fun hk hrun => hk.invalidate hrun)
  | maxPos =>
    apply hs.same rfl rfl
    rfl

/-- What the largest limit covers is refused. -/
theorem trimmed (hs : StoresLimit oid h pool) (hne : oid ≠ "") {x n : Nat}
    (hn : largestLimit h = some n) (hx : x ≤ n) :
    Trimmed CephBackend.executes oid (lastSeal h) pool x := by
  intro q hq e' he'
  have hpos : 1 ≤ lastSeal h := by
    rcases Nat.eq_zero_or_pos (lastSeal h) with h0 | hpos
    · rw [(hs.absent h0).1] at hn
      cases hn
    · exact hpos
  obtain ⟨obj, hobj, hholds⟩ := hs.present hpos
  obtain ⟨header, hread, hepoch, hlimit⟩ := hholds.header
  have hguard : header.epochGuard e' = .ok () := epochGuard_eq_ok.mpr ⟨by omega, by omega⟩
  have htrim : header.positionTrimmed q = true := by
    simp [LogObjectHeader.positionTrimmed, hlimit, hn, hq.trans hx]
  refine ⟨?_, ?_⟩
  · -- a read of `q`
    rintro r pool' ⟨be, hexec⟩
    have hr : be.read pool oid e' q = r := congrArg Prod.fst hexec
    rw [← hr]
    simp [CephBackend.read, hne, Pool.query, hobj, logEntryRead, hread, hguard, htrim, bind,
      Except.bind]
  · -- a write to `q`
    rintro d r pool' ⟨be, hexec⟩
    have hr : (be.write pool oid d e' q).1 = r := congrArg Prod.fst hexec
    rw [← hr]
    simp [CephBackend.write, hne, Pool.operate, hobj, logEntryWrite, hread, hguard, htrim, bind,
      Except.bind]

/-- A limit that does not fit is lost: an entry call finds the header without a limit. -/
theorem lost {t : Option Nat} {T : List Nat} {e : Nat} {obj : RadosObject ν}
    {header : LogObjectHeader} (hholds : HoldsLimit e t T obj)
    (hread : LogObjectHeader.read (some obj) = .ok header) {x : Nat} (hge : 2 ^ 63 ≤ x)
    (hlt : x < 2 ^ 64) :
    ∃ lost, LogObjectHeader.read
        (some (LogObjectHeader.writeIf (header.updateTrimLimit x) obj)) = .ok lost ∧
      lost.epoch = e ∧ lost.trimLimit = none := by
  obtain ⟨header', hread', hepoch, hlimit⟩ := hholds.header
  cases hread.symm.trans hread'
  obtain ⟨hepoch', hlimit', -⟩ := HoldsLimit.updateTrimLimit_eq header x
  -- every limit before was below 2^63, so the new one is greater
  have hraise : raiseMax header.trimLimit x = x := by
    unfold raiseMax
    split
    · rfl
    · next m hm =>
      have := hholds.fits m (hlimit.symm.trans hm)
      exact max_eq_right (by omega)
  have hchanged : (header.updateTrimLimit x).1 = true := by
    unfold LogObjectHeader.updateTrimLimit
    split
    · rfl
    · next m hm =>
      have := hholds.fits m (hlimit.symm.trans hm)
      rw [if_pos (by omega)]
  -- it is stored as a negative number, and read back as no limit
  have hneg : toInt64 x < 0 := by
    unfold toInt64
    rw [Int.bmod_def]
    omega
  rw [hraise] at hlimit'
  refine ⟨{ (header.updateTrimLimit x).2 with trimLimit := none }, ?_, hepoch'.trans hepoch, rfl⟩
  rw [LogObjectHeader.writeIf, if_pos hchanged]
  simp [LogObjectHeader.read, LogObjectHeader.write, hlimit', not_le.mpr hneg]

/-- Fewer entries than positions below the limit: one of them has none. -/
theorem exists_notMem (T : List Nat) {x : Nat} (hlen : T.length ≤ x) : ∃ q ≤ x, q ∉ T := by
  by_contra hall
  push Not at hall
  have hsub : Finset.range (x + 1) ⊆ T.toFinset := by
    intro q hq
    rw [List.mem_toFinset]
    exact hall q (Nat.lt_succ_iff.mp (Finset.mem_range.mp hq))
  have hcard := (Finset.card_le_card hsub).trans T.toFinset_card_le
  rw [Finset.card_range] at hcard
  omega

/-- A limit that does not fit is accepted, but a position without an entry is not `-ENODATA`. -/
theorem breaks (hs : StoresLimit oid h pool) (hne : oid ≠ "") {e x : Nat} {f : Bool} {r : Ret Unit}
    {pool' : Pool ν} (hpos : 1 ≤ lastSeal h) (hle : lastSeal h ≤ e) (hge : 2 ^ 63 ≤ x)
    (hlt : x < 2 ^ 64) (hlen : h.length < 2 ^ 63)
    (hok : TrimFullOk h (.trim oid e x true f : Call ν _))
    (hexec : CephBackend.executes _ pool (.trim oid e x true f) r pool') :
    ¬ LimitsKept CephBackend.executes oid (h ++ [⟨.trim oid e x true f, r⟩]) pool' := by
  intro hkept
  obtain ⟨be, hrun⟩ := hexec
  obtain ⟨obj, hobj, hholds⟩ := hs.present hpos
  obtain ⟨header, hread, hepoch, -⟩ := hholds.header
  obtain ⟨pool₁, htrim, hobj₁⟩ := hs.trim_limit be hne hobj hholds
    ⟨hread, by omega, by omega⟩ hok
  obtain ⟨-, htrimmed⟩ := hkept e x f r (by simp)
  have hlast : lastSeal (h ++ [⟨.trim oid e x true f, r⟩]) = lastSeal h := by
    simp [Call.sealsFor]
  rw [hlast] at htrimmed
  cases htrim.symm.trans hrun
  obtain ⟨lost, hlost, hlostEpoch, hlostLimit⟩ := lost hholds hread hge hlt
  -- fewer positions were touched than there are below `x`, so one is free
  obtain ⟨q, hq, hfree⟩ := exists_notMem (touched h) (x := x) (by
    have := List.length_filterMap_le Done.touches h
    unfold touched
    omega)
  have hnone : obj.omap.find? (entryKey q) = none := by
    apply Lib.OrderedMap.find?_eq_none.mpr
    intro kv hkv hkey
    obtain ⟨q', hq', hkey'⟩ := hholds.keys kv hkv
    exact hfree (entryKey_injective (hkey.symm.trans hkey') ▸ hq')
  -- the property promises that this position answers `-ENODATA`
  have henodata : be.read pool' oid (lastSeal h) q = .error .enodata :=
    (htrimmed q hq (lastSeal h) le_rfl).1 _ pool' ⟨be, rfl⟩
  -- but the header has no limit, and the position no entry
  have hguarded : ∀ obj', LogObjectHeader.read (some obj') = .ok lost →
      obj'.omap.find? (entryKey q) = none → pool'.lookup oid = some obj' → False := by
    intro obj' hread' hnone' hobj'
    have hguard : lost.epochGuard (lastSeal h) = .ok () := epochGuard_eq_ok.mpr ⟨hpos, by omega⟩
    have huntrimmed : lost.positionTrimmed q = false := by
      simp [LogObjectHeader.positionTrimmed, hlostLimit]
    simp [CephBackend.read, hne, Pool.query, hobj', logEntryRead, hread', hguard, huntrimmed,
      LogEntry.read, hnone', bind, Except.bind] at henodata
  cases f with
  | true =>
    apply hguarded _ _ _ hobj₁
    · exact hlost
    · exact Lib.OrderedMap.find?_empty _
  | false =>
    apply hguarded _ hlost _ hobj₁
    rw [LogObjectHeader.omap_writeIf]
    exact hnone

end StoresLimit

/-- Ceph stores the largest limit. -/
theorem keepsLimits {oid : String} (hne : oid ≠ "") {pool₀ : Pool ν}
    (hfree : pool₀.lookup oid = none) :
    KeepsLimits CephBackend.executes oid pool₀ (StoresLimit oid) where
  start := .of_free hfree
  step := by
    rintro h pool pool' α c r hs hc hst hposition hok hfit ⟨be, hexec⟩
    obtain rfl : (be.exec pool c).1 = r := congrArg Prod.fst hexec
    obtain rfl : (be.exec pool c).2 = pool' := congrArg Prod.snd hexec
    exact hs.exec be hne hc hst hposition hok hfit
  accepts := by
    rintro h pool pool' e x f r hs hpos hle hok hx ⟨be, hexec⟩
    rw [← (hs.limit be hne hpos hle hok hx).1]
    exact (congrArg Prod.fst hexec).symm
  refuses := fun hs hn hx => hs.trimmed hne hn hx

end CephBackend

/-! ## Both backends -/

/-- Limits are kept in every state of a run on LMDB or Ceph whose limits are all below `2 ^ 63`.
    On LMDB in no other run; on Ceph in no other run that is too short to invalidate every
    position one by one. -/
theorem limitsKept_iff {oid : String} (hne : oid ≠ "") :
    (∀ (b₀ b : LMDBBackend ν) (h : List (Done ν)), b₀.get oid = none →
      LimitRun LMDBBackend.executes oid b₀ h b →
      (LimitsFit oid h ↔ ∀ h₁ b₁, h₁ <+: h → LimitRun LMDBBackend.executes oid b₀ h₁ b₁ →
        LimitsKept LMDBBackend.executes oid h₁ b₁)) ∧
    ∀ (pool₀ pool : Pool ν) (h : List (Done ν)), pool₀.lookup oid = none →
      LimitRun CephBackend.executes oid pool₀ h pool →
      (LimitsFit oid h → ∀ h₁ pool₁, h₁ <+: h →
        LimitRun CephBackend.executes oid pool₀ h₁ pool₁ →
        LimitsKept CephBackend.executes oid h₁ pool₁) ∧
      (h.length ≤ 2 ^ 63 → (∀ h₁ pool₁, h₁ <+: h →
        LimitRun CephBackend.executes oid pool₀ h₁ pool₁ →
        LimitsKept CephBackend.executes oid h₁ pool₁) → LimitsFit oid h) := by
  refine ⟨?_, ?_⟩
  · -- on LMDB
    intro b₀ b h hfree hrun
    have hk := LMDBBackend.keepsLimits hne hfree
    constructor
    · intro hfit h₁ b₁ hp hrun₁
      exact hk.kept hrun₁ (hfit.of_prefix hp)
    · exact hk.fits (fun _ hs hpos hle hlt _ hge hexec => hs.breaks hne hpos hle hge hlt hexec) hrun
  · -- on Ceph
    intro pool₀ pool h hfree hrun
    have hk := CephBackend.keepsLimits hne hfree
    refine ⟨?_, ?_⟩
    · intro hfit h₁ pool₁ hp hrun₁
      exact hk.kept hrun₁ (hfit.of_prefix hp)
    · intro hlen
      exact hk.fits (fun hlt' hs hpos hle hlt hok hge hexec =>
        hs.breaks hne hpos hle hge hlt (by omega) hok hexec) hrun

/-- A seal and a trim with a limit. -/
def sealTrim (x : Nat) (f : Bool) (r : Ret Unit) : List (Done Unit) :=
  [⟨.seal "o" 1, .ok ()⟩, ⟨.trim "o" 1 x true f, r⟩]

/-- A seal and a trim of a limit make a run. -/
theorem sealTrim_run {exec : Executes Unit σ} {s₀ s₁ s₂ : σ} {x : Nat} {f : Bool} {r : Ret Unit}
    (hx : x < 2 ^ 64) (hseal : exec _ s₀ (.seal "o" 1) (.ok ()) s₁)
    (htrim : exec _ s₁ (.trim "o" 1 x true f) r s₂) :
    LimitRun exec "o" s₀ (sealTrim x f r) s₂ := by
  have hfirst : LimitRun exec "o" s₀ ([] ++ [⟨.seal "o" 1, .ok ()⟩]) s₁ := by
    refine .call (.seal "o" 1) _ .start (.seal 1) ⟨?_, ?_⟩ ?_ trivial hseal
    · intro e he
      cases he
      decide
    · intro e he
      cases he
    · intro p hp
      cases hp
  refine .call (.trim "o" 1 x true f) _ hfirst (.trim 1 x true f) ⟨?_, ?_⟩ ?_ ?_ htrim
  · intro e he
    cases he
  · intro e he
    cases he
    decide
  · intro p hp
    cases hp
    exact hx
  · cases f with
    | false => trivial
    | true =>
      intro q hq
      cases hq

/-- `sealTrim` on an empty database. -/
def lmdbSealTrim (x : Nat) (f : Bool) : Ret Unit × LMDBBackend Unit :=
  (LMDBBackend.seal {} "o" 1).2.trim "o" 1 x true f

/-- An instance without a size threshold. -/
def plainBackend : CephBackend := ⟨none, ⟨0, false⟩⟩

/-- `sealTrim` on an empty pool. -/
def cephSealTrim (x : Nat) (f : Bool) : Ret Unit × Pool Unit :=
  plainBackend.trim (plainBackend.seal ∅ "o" 1).2 "o" 1 x true f

/-- The run on LMDB. -/
theorem lmdbSealTrim_run {x : Nat} (hx : x < 2 ^ 64) (f : Bool) :
    LimitRun LMDBBackend.executes "o" {} (sealTrim x f (lmdbSealTrim x f).1) (lmdbSealTrim x f).2 :=
  sealTrim_run hx rfl rfl

/-- The run on Ceph. -/
theorem cephSealTrim_run {x : Nat} (hx : x < 2 ^ 64) (f : Bool) :
    LimitRun CephBackend.executes "o" ∅ (sealTrim x f (cephSealTrim x f).1) (cephSealTrim x f).2 :=
  sealTrim_run hx ⟨plainBackend, rfl⟩ ⟨plainBackend, rfl⟩

/-- A limit that fits is kept. -/
theorem limitsKept_five :
    LimitsKept LMDBBackend.executes "o" (sealTrim 5 true (lmdbSealTrim 5 true).1)
      (lmdbSealTrim 5 true).2 ∧
    LimitsKept CephBackend.executes "o" (sealTrim 5 true (cephSealTrim 5 true).1)
      (cephSealTrim 5 true).2 := by
  have hfit : ∀ r, LimitsFit "o" (sealTrim 5 true r) := by
    intro r e x f r' hmem
    rcases List.mem_cons.mp hmem with hseal | hmem
    · cases hseal
    · cases List.mem_singleton.mp hmem
      decide
  have hlmdb := lmdbSealTrim_run (x := 5) (by decide) true
  have hceph := cephSealTrim_run (x := 5) (by decide) true
  obtain ⟨hl, hc⟩ := limitsKept_iff (ν := Unit) (show "o" ≠ "" by decide)
  exact ⟨(hl _ _ _ rfl hlmdb).mp (hfit _) _ _ (List.prefix_refl _) hlmdb,
    (hc _ _ _ rfl hceph).1 (hfit _) _ _ (List.prefix_refl _) hceph⟩

/-- A limit of `2 ^ 63` trips the assertion of LMDB; Ceph accepts it and then has no limit. -/
theorem limit_lost :
    ¬ (∀ (h : List (Done Unit)) (b : LMDBBackend Unit),
      LimitRun LMDBBackend.executes "o" {} h b → LimitsKept LMDBBackend.executes "o" h b) ∧
    ¬ ∀ (h : List (Done Unit)) (pool : Pool Unit),
      LimitRun CephBackend.executes "o" ∅ h pool → LimitsKept CephBackend.executes "o" h pool := by
  refine ⟨?_, ?_⟩
  · intro hall
    have hkept := hall _ _ (lmdbSealTrim_run (x := 2 ^ 63) (by decide) false)
    have hok := (hkept 1 (2 ^ 63) false _ (List.mem_cons_of_mem _ (List.mem_singleton.mpr rfl))).1
    revert hok
    decide
  · intro hall
    have hkept := hall _ _ (cephSealTrim_run (x := 2 ^ 63) (by decide) false)
    have htrimmed := (hkept 1 (2 ^ 63) false _ (List.mem_cons_of_mem _ (List.mem_singleton.mpr rfl))).2
    have hread := (htrimmed 0 (by decide) 1 (by decide)).1 _ _ ⟨plainBackend, rfl⟩
    revert hread
    decide

end ZLog
