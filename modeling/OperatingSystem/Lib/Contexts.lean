/-
Saved contexts, as `ucontext` has them, program-independent.

A context object holds the point at which the processor continues when the
object is restored; `getcontext`, `makecontext`, `setcontext` and
`swapcontext` are the only operations. Points and objects are arbitrary
types, so a client decides how fine its points are.
-/
import Mathlib.Logic.Function.Basic

namespace OperatingSystem.Lib

/-- The point the processor is at, and the point each context object
holds. -/
structure Contexts (κ π : Type*) where
  pc : π
  saved : κ → π

namespace Contexts

variable {κ π : Type*} [DecidableEq κ] {k out into : κ} {p : π}
  {c : Contexts κ π}

/-- Save the point the processor is at. -/
def getcontext (k : κ) (c : Contexts κ π) : Contexts κ π :=
  { c with saved := Function.update c.saved k c.pc }

/-- Make an object start at a given point. -/
def makecontext (k : κ) (p : π) (c : Contexts κ π) : Contexts κ π :=
  { c with saved := Function.update c.saved k p }

/-- Continue at the point an object holds; nothing is saved. -/
def setcontext (k : κ) (c : Contexts κ π) : Contexts κ π :=
  { c with pc := c.saved k }

/-- Save the point in `out` and continue at the one `into` holds. -/
def swapcontext (out into : κ) (c : Contexts κ π) : Contexts κ π :=
  (c.getcontext out).setcontext into

-- ======================================================== what each keeps

@[simp] theorem makecontext_pc : (c.makecontext k p).pc = c.pc := rfl

/-- `makecontext` touches its own object only. -/
theorem makecontext_saved (j : κ) :
    (c.makecontext k p).saved j = if j = k then p else c.saved j :=
  Function.update_apply c.saved k p j

/-- `getcontext` touches its own object only. -/
theorem getcontext_saved (j : κ) :
    (c.getcontext k).saved j = if j = k then c.pc else c.saved j :=
  Function.update_apply c.saved k c.pc j

/-- `swapcontext` touches the object it saves in only. -/
theorem swapcontext_saved (j : κ) :
    (c.swapcontext out into).saved j
      = if j = out then c.pc else c.saved j :=
  getcontext_saved j

/-- Between two objects, `swapcontext` continues at what the second held
before. -/
theorem swapcontext_pc (h : into ≠ out) :
    (c.swapcontext out into).pc = c.saved into := by
  show (c.getcontext out).saved into = c.saved into
  rw [getcontext_saved, if_neg h]

end Contexts

end OperatingSystem.Lib
