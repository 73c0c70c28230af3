/-
The rope-crossing protocol of hw3: `fly_Baboons_Fly`, which every forked
baboon process runs once. `baboon39.c` and `baboon40.c` share it; the
second adds the `starvation` semaphore around the entry section.

# Granularity

One step is one access to shared state, as the processes interleave:

- a `sem_wait` is atomic and disabled while the semaphore is 0, a
  `sem_post` is atomic and always enabled;
- `twoSideBaboons[direction]++` and `--` are a load and a store, and the
  test that follows is a load of its own; the loaded value is the
  operand of the program counter (`writeEnter`, `writeLeave`);
- a local stretch (`onRope` and `cross` with their status updates) is a
  step that touches nobody else's state.

The counters are `int`s in shared memory; they are unbounded here, as a
counter never exceeds the number of processes.
-/
import OperatingSystem.Lib.Transition
import Mathlib.Logic.Function.Basic

namespace OperatingSystem.Baboon

/-- `EAST` and `WEST`. -/
inductive Direction
  | east
  | west
  deriving DecidableEq, Repr

/-- `Baboon.status`: `ARRIVAL`, `ONROPE`, `CROSSED`. -/
inductive Status
  | arrival
  | onrope
  | crossed
  deriving DecidableEq, Repr

/-- The two programs of hw3. -/
inductive Version
  | baboon39
  | baboon40
  deriving DecidableEq, Repr

/-- The next step of a process inside `fly_Baboons_Fly`. -/
inductive Pc
  | waitStarvation
  | waitEnter
  | readEnter
  | writeEnter (v : Int)
  | testFirst
  | waitRope
  | onRope
  | postEnter
  | postStarvation
  | cross
  | waitLeave
  | readLeave
  | writeLeave (v : Int)
  | testLast
  | postRope
  | postLeave
  | done
  deriving DecidableEq, Repr

/-- Shared memory, the semaphores' values and every process's own part:
its program counter and the `status` of its `Baboon`. -/
structure State (ι : Type*) where
  pc : ι → Pc
  status : ι → Status
  twoSideBaboons : Direction → Int
  directionLock : Direction → Nat
  ropeLock : Nat
  starvation : Nat

/-- Where the entry section starts: `baboon40.c` waits for `starvation`
before the direction lock, `baboon39.c` does not have it. -/
def entry : Version → Pc
  | .baboon39 => .waitEnter
  | .baboon40 => .waitStarvation

/-- What follows `sem_post(directionLock[direction])` in the entry
section. -/
def afterPostEnter : Version → Pc
  | .baboon39 => .cross
  | .baboon40 => .postStarvation

/-- `sem_wait`: take a permit, blocked while there is none. -/
def semWait : Nat → Option Nat
  | 0 => none
  | n + 1 => some n

/-- `sem_post`. -/
def semPost (n : Nat) : Nat := n + 1

variable {ι : Type*} [DecidableEq ι]

/-- Process `i` proceeds to `p`. -/
def State.goto (s : State ι) (i : ι) (p : Pc) : State ι :=
  { s with pc := Function.update s.pc i p }

/-- Direction lock `d` is left with `n` permits. -/
def State.setDirectionLock (s : State ι) (d : Direction) (n : Nat) :
    State ι :=
  { s with directionLock := Function.update s.directionLock d n }

/-- `twoSideBaboons[d] = n`. -/
def State.setTwoSideBaboons (s : State ι) (d : Direction) (n : Int) :
    State ι :=
  { s with twoSideBaboons := Function.update s.twoSideBaboons d n }

/-- `aBaboon->status = x` in process `i`. -/
def State.setStatus (s : State ι) (i : ι) (x : Status) : State ι :=
  { s with status := Function.update s.status i x }

/-- `fly_Baboons_Fly`, one step of process `i`, whose direction is
`dir i`. -/
def flyBaboonsFly (v : Version) (dir : ι → Direction) (i : ι)
    (s : State ι) : Option (State ι) :=
  match s.pc i with
  | .waitStarvation =>
      (semWait s.starvation).map fun n =>
        { s with starvation := n }.goto i .waitEnter
  | .waitEnter =>
      (semWait (s.directionLock (dir i))).map fun n =>
        (s.setDirectionLock (dir i) n).goto i .readEnter
  | .readEnter => some (s.goto i (.writeEnter (s.twoSideBaboons (dir i))))
  | .writeEnter n =>
      some ((s.setTwoSideBaboons (dir i) (n + 1)).goto i .testFirst)
  | .testFirst =>
      if s.twoSideBaboons (dir i) = 1 then some (s.goto i .waitRope)
      else some (s.goto i .onRope)
  | .waitRope =>
      (semWait s.ropeLock).map fun n =>
        { s with ropeLock := n }.goto i .onRope
  | .onRope => some ((s.setStatus i .onrope).goto i .postEnter)
  | .postEnter =>
      some ((s.setDirectionLock (dir i)
        (semPost (s.directionLock (dir i)))).goto i (afterPostEnter v))
  | .postStarvation =>
      some ({ s with starvation := semPost s.starvation }.goto i .cross)
  | .cross => some ((s.setStatus i .crossed).goto i .waitLeave)
  | .waitLeave =>
      (semWait (s.directionLock (dir i))).map fun n =>
        (s.setDirectionLock (dir i) n).goto i .readLeave
  | .readLeave => some (s.goto i (.writeLeave (s.twoSideBaboons (dir i))))
  | .writeLeave n =>
      some ((s.setTwoSideBaboons (dir i) (n - 1)).goto i .testLast)
  | .testLast =>
      if s.twoSideBaboons (dir i) = 0 then some (s.goto i .postRope)
      else some (s.goto i .postLeave)
  | .postRope =>
      some ({ s with ropeLock := semPost s.ropeLock }.goto i .postLeave)
  | .postLeave =>
      some ((s.setDirectionLock (dir i)
        (semPost (s.directionLock (dir i)))).goto i .done)
  | .done => none

/-- `main` has zeroed both counters, every `sem_open` has created its
semaphore with value 1, and every forked process has arrived. -/
def initial (v : Version) : State ι where
  pc := fun _ => entry v
  status := fun _ => .arrival
  twoSideBaboons := fun _ => 0
  directionLock := fun _ => 1
  ropeLock := 1
  starvation := 1

/-- The protocol over the processes `ι`: the label is whose step it is. -/
def system (v : Version) (dir : ι → Direction) : Lib.System (State ι) ι where
  start := fun s => s = initial v
  step := flyBaboonsFly v dir

/-- States reachable under any interleaving. -/
abbrev Reachable (v : Version) (dir : ι → Direction) : State ι → Prop :=
  Lib.Reach (system v dir) Lib.Anything

/-- The process has passed the entry section (its own wait for the rope,
if it was the first) and has not yet stored the decremented counter. -/
def Pc.onTheRope : Pc → Bool
  | .onRope | .postEnter | .postStarvation | .cross | .waitLeave
  | .readLeave | .writeLeave _ => true
  | _ => false

/-- Process `i` is on the rope. -/
def OnTheRope (s : State ι) (i : ι) : Prop := (s.pc i).onTheRope = true

end OperatingSystem.Baboon
