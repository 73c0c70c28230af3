/-
`matrix.c` from `main` to the last line it prints: the threads that fill `A`
and `B`, those that multiply, those of `maxRowSum`, and `main`, which starts
each group and joins it before the next.

# Granularity

`main` has nothing to do between `pthread_create` and `pthread_join`, so a
thread counts as started with its group. A step of a thread is one access to
a matrix that it writes: a thread of `multiply` clears its entry of `C`, and
then, for each `x`, loads it and stores the new value in two steps. The steps
of `maxRowSum` are those of `Matrix.Basic`.

# What is outside

`rand_r` is a parameter, a function of the seed; the seeds come from the
clock. A `pthread_create` or `pthread_join` that fails ends the program and
is left out, as are the sleeps. An `int` computation that leaves its range is
undefined: the step has no result.
-/
import Mathlib.Algebra.BigOperators.Fin
import OperatingSystem.Matrix.Basic

namespace OperatingSystem.Matrix

open Lib (System)

-- ================================================================ the data

/-- `int Matrix[N][N]`. -/
abbrev Entries (n : Nat) := Fin n → Fin n → Int

/-- `Matrix[i][j] = v`. -/
def Entries.set {n : Nat} (M : Entries n) (i j : Fin n) (v : Int) : Entries n :=
  Function.update M i (Function.update (M i) j v)

/-- The seeds of a thread. Its `xLoc` and `yLoc` are its place in `seeds`. -/
structure TimeSeed where
  seed1 : Nat
  seed2 : Nat

/-- Where a thread of `assignNumber` is. -/
inductive AssignPc
  | storeA
  | storeB
  | finished
  deriving DecidableEq, Repr

/-- Where a thread of `multiply` is: before `C[i][j] = 0`, at the head of
the loop, or about to store to `C[i][j]`. -/
inductive MultiplyPc
  | clear
  | loop (x : Nat)
  | store (x : Nat) (v : Int)
  | finished
  deriving DecidableEq, Repr

/-- The group of threads that `main` has started and joins. -/
inductive Stage (n : Nat)
  | assigning (pc : Fin n × Fin n → AssignPc)
  | multiplying (pc : Fin n × Fin n → MultiplyPc)
  | summing (phase : Fin n → Phase)
  | ended

/-- The globals, where the threads are, and what has been printed: the
matrices that `showMatrix` has shown, and the last line. -/
structure Program (n : Nat) where
  A : Entries n
  B : Entries n
  C : Entries n
  maxRowSum : Int
  stage : Stage n
  shown : List (Entries n)
  printed : Option Int

/-- A step of a thread, or `main` having joined a whole group. -/
inductive Label (n : Nat)
  | assign (i j : Fin n)
  | multiply (i j : Fin n)
  | sum (a : Action n)
  | join

-- ============================================================= the threads

variable {n : Nat}

/-- `a * b` of two `int`s. -/
def mul (a b : Int) : Option Int :=
  if INT_MIN ≤ a * b ∧ a * b ≤ INT_MAX then some (a * b) else none

/-- `a + b` of two `int`s. -/
def add (a b : Int) : Option Int :=
  if INT_MIN ≤ a + b ∧ a + b ≤ INT_MAX then some (a + b) else none

/-- `rand_r(&seed) % 10`. -/
def digit (randR : Nat → Int) (seed : Nat) : Int := (randR seed).tmod 10

/-- `assignNumber`. -/
def assignNumber (randR : Nat → Int) (seed : TimeSeed) (i j : Fin n)
    (pc : Fin n × Fin n → AssignPc) (p : Program n) : Option (Program n) :=
  match pc (i, j) with
  | .storeA => some { p with
      A := p.A.set i j (digit randR seed.seed1)
      stage := .assigning (Function.update pc (i, j) .storeB) }
  | .storeB => some { p with
      B := p.B.set i j (digit randR seed.seed2)
      stage := .assigning (Function.update pc (i, j) .finished) }
  | .finished => none

/-- `multiply`. -/
def multiply (i j : Fin n) (pc : Fin n × Fin n → MultiplyPc) (p : Program n) :
    Option (Program n) :=
  match pc (i, j) with
  | .clear => some { p with
      C := p.C.set i j 0
      stage := .multiplying (Function.update pc (i, j) (.loop 0)) }
  | .loop x =>
      if h : x < n then do
        let product ← mul (p.A i ⟨x, h⟩) (p.B ⟨x, h⟩ j)
        let v ← add (p.C i j) product
        some { p with
          stage := .multiplying (Function.update pc (i, j) (.store x v)) }
      else some { p with
        stage := .multiplying (Function.update pc (i, j) .finished) }
  | .store x v => some { p with
      C := p.C.set i j v
      stage := .multiplying (Function.update pc (i, j) (.loop (x + 1))) }
  | .finished => none

/-- The rows of a matrix. -/
def rows (M : Entries n) : Fin n → List Int := fun i => List.ofFn (M i)

/-- `maxRowSum`, over the rows of `C`. -/
def maxRowSum (a : Action n) (phase : Fin n → Phase) (p : Program n) :
    Option (Program n) :=
  (step (rows p.C) a ⟨p.maxRowSum, phase⟩).map fun s =>
    { p with maxRowSum := s.maxRowSum, stage := .summing s.phase }

/-- `main`: all threads of the group are joined, its result is shown, and
the next group is started. -/
def joinAll (p : Program n) : Option (Program n) :=
  match p.stage with
  | .assigning pc =>
      if ∀ k, pc k = .finished then some { p with
        shown := p.shown ++ [p.A, p.B]
        stage := .multiplying fun _ => .clear }
      else none
  | .multiplying pc =>
      if ∀ k, pc k = .finished then some { p with
        shown := p.shown ++ [p.C]
        stage := .summing fun _ => .created }
      else none
  | .summing phase =>
      if ∀ i, phase i = .finished then some { p with
        printed := some p.maxRowSum
        stage := .ended }
      else none
  | .ended => none

/-- One step of the program. -/
def mainStep (randR : Nat → Int) (seeds : Fin n → Fin n → TimeSeed)
    (l : Label n) (p : Program n) : Option (Program n) :=
  match l, p.stage with
  | .assign i j, .assigning pc => assignNumber randR (seeds i j) i j pc p
  | .multiply i j, .multiplying pc => multiply i j pc p
  | .sum a, .summing phase => maxRowSum a phase p
  | .join, _ => joinAll p
  | _, _ => none

/-- The globals are zero, and the first group is started. -/
def Program.start (n : Nat) : Program n where
  A := fun _ _ => 0
  B := fun _ _ => 0
  C := fun _ _ => 0
  maxRowSum := 0
  stage := .assigning fun _ => .storeA
  shown := []
  printed := none

def program (randR : Nat → Int) (seeds : Fin n → Fin n → TimeSeed) :
    System (Program n) (Label n) where
  start p := p = .start n
  step := mainStep randR seeds

-- ============================================================== the purpose

/-- The product of two matrices. -/
def product (A B : Entries n) : Entries n := fun i j => ∑ x, A i x * B x j

/-- The sum of all entries. -/
def total (M : Entries n) : Int := ∑ i, ∑ j, M i j

end OperatingSystem.Matrix
