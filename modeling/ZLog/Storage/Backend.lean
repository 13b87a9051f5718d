import Mathlib.Algebra.Group.Int.Defs
import Mathlib.Algebra.Group.Nat.Defs
import Mathlib.Data.List.Basic
import Mathlib.Data.Int.Basic

/-!
# The storage backend interface

The calls of `zlog::Backend` and the codes they answer with.  A call is indexed by the type of
its answer, so that the two implementations under `Storage/` and the clients above them share
one notion of request.

An answer is `Except Errno α`: `.ok` for the return value 0 together with the call's output
parameters, `.error e` for a negative return value.  View blobs are opaque to a backend, hence
the type parameter `ν`.
-/

namespace ZLog

/-- The error codes of the backend and log interfaces. -/
inductive Errno where
  | einval | enoent | espipe | erofs | enodata | erange | eexist | eio
  | etimedout | eintr | eshutdown | estale
  /-- Not a code: the exception or failed assertion raised when a key holds an object of
      another kind. -/
  | badKind
  /-- Not a code: a failed assertion inside the backend. -/
  | assertion
  /-- Not an outcome of the source: a loop of the model ran out of rounds. -/
  | outOfFuel
  deriving DecidableEq, Repr

/-- The result of a call: its output on return value 0, else the error code. -/
abbrev Ret (α : Type) := Except Errno α

/-! ## Signed positions -/

/-- `int64_t(n)` of an unsigned value. -/
def toInt64 (n : Nat) : Int := Int.bmod n (2 ^ 64)

/-- `uint64_t(i)` of a signed value. -/
def toUInt64 (i : Int) : Nat := (i % 2 ^ 64).toNat

theorem toInt64_of_lt {n : Nat} (h : n < 2 ^ 63) : toInt64 n = n := by
  unfold toInt64
  rw [Int.bmod_def]
  omega

theorem toUInt64_of_lt {n : Nat} (h : n < 2 ^ 63) : toUInt64 (n : Int) = n := by
  unfold toUInt64
  omega

/-! ## Calls -/

/-- The requests of `zlog::Backend` that the log client makes. -/
inductive Call (ν : Type) : Type → Type where
  | openLog (name : String) : Call ν (Ret (String × String))
  | uniqueId (hoid : String) : Call ν (Ret Nat)
  | readViews (hoid : String) (epoch maxViews : Nat) : Call ν (Ret (List (Nat × ν)))
  | proposeView (hoid : String) (epoch : Nat) (view : ν) : Call ν (Ret Unit)
  | read (oid : String) (epoch position : Nat) : Call ν (Ret String)
  | write (oid data : String) (epoch position : Nat) : Call ν (Ret Unit)
  | fill (oid : String) (epoch position : Nat) : Call ν (Ret Unit)
  | trim (oid : String) (epoch position : Nat) (trimLimit trimFull : Bool) : Call ν (Ret Unit)
  | seal (oid : String) (epoch : Nat) : Call ν (Ret Unit)
  /-- `MaxPos`: the answer is `none` when `*empty` is set, else `*pos`. -/
  | maxPos (oid : String) : Call ν (Ret (Option Nat))
  /-- A step that makes no backend call. -/
  | skip : Call ν Unit

end ZLog
