/-
The largest row sum of hw2: `maxRowSum` of `matrix.c`, one thread for each
row of the product `C`.

# Granularity

A thread meets the others twice. It initialises `sum` from `MAX_ROW_SUM`
before it has the lock, and what it subtracts from it afterwards is its own
row, which no thread writes any more. Everything between `lock` and `unlock`
is the second step. The entries of the other matrices, the random sleep and
the threads that fill `C` are left out, and `main` only waits for the last
thread.

# Overflow

An `int` computation that leaves its range is undefined: the step has no
result.
-/
import Mathlib.Data.Finset.Fold
import Mathlib.Data.Fin.VecNotation
import Mathlib.Data.Fintype.Basic
import Mathlib.Algebra.Order.Group.Int
import Mathlib.Algebra.Ring.Int.Defs
import OperatingSystem.Lib.Transition

namespace OperatingSystem.Matrix

open Lib (System)

def INT_MIN : Int := -2 ^ 31
def INT_MAX : Int := 2 ^ 31 - 1

/-- `a - b` of two `int`s. -/
def sub (a b : Int) : Option Int :=
  if INT_MIN ≤ a - b ∧ a - b ≤ INT_MAX then some (a - b) else none

/-- Where a thread is: before its first read, in front of the lock with its
`sum`, or finished. -/
inductive Phase
  | created
  | summed (sum : Int)
  | finished
  deriving DecidableEq, Repr

/-- `MAX_ROW_SUM`, and where the thread of each row is. -/
structure State (n : Nat) where
  maxRowSum : Int
  phase : Fin n → Phase

/-- The two steps of a thread. -/
inductive Action (n : Nat)
  | read (i : Fin n)
  | update (i : Fin n)
  deriving DecidableEq, Repr

/-- Whose step it is. -/
def Action.thread {n : Nat} : Action n → Fin n
  | .read i => i
  | .update i => i

/-- `sum -= C[i][x]` for each `x`. -/
def subtractRow : (row : List Int) → (sum : Int) → Option Int
  | [], sum => some sum
  | entry :: row, sum => do
      let sum ← sub sum entry
      subtractRow row sum

/-- What is done under the lock: the row's sum is printed, and
`MAX_ROW_SUM` moves by `sum` if that is negative. -/
def compareAndUpdate (sum maxRowSum : Int) : Option Int := do
  let _printed ← sub maxRowSum sum
  if sum < 0 then sub maxRowSum sum else some maxRowSum

variable {n : Nat}

/-- One step of `maxRowSum`. -/
def step (C : Fin n → List Int) (a : Action n) (s : State n) :
    Option (State n) :=
  match a, s.phase a.thread with
  | .read i, .created => do
      let sum ← subtractRow (C i) s.maxRowSum
      some { s with phase := Function.update s.phase i (.summed sum) }
  | .update i, .summed sum => do
      let maxRowSum ← compareAndUpdate sum s.maxRowSum
      some { maxRowSum, phase := Function.update s.phase i .finished }
  | _, _ => none

/-- The state in which `main` has filled `C`. -/
def State.start (n : Nat) : State n := ⟨0, fun _ => .created⟩

/-- The threads over the matrix `C`. -/
def threads (C : Fin n → List Int) : System (State n) (Action n) where
  start s := s = .start n
  step := step C

/-- Each thread takes its two steps, in this order; how the threads
interleave is free. -/
def Interleaving (acts : List (Action n)) : Prop :=
  ∀ i, (acts.filter fun a => a.thread = i) = [.read i, .update i]

instance (acts : List (Action n)) : Decidable (Interleaving acts) :=
  inferInstanceAs (Decidable (∀ _, _))

/-- What the program is to compute, 0 for a matrix without rows. -/
def largest (C : Fin n → List Int) : Int :=
  Finset.univ.fold max 0 fun i => (C i).sum

end OperatingSystem.Matrix
