/-
Every crossing comes to an end.

`Crossing` shows that the protocol is never stuck before everybody is done.
Here is the other half: no baboon can take more than 14 steps (16 in
`baboon40.c`), since no step leads back (`Pc.left`). So "never stuck" becomes
"completes": under any scheduling, fair or not, whoever keeps taking a step
while one is enabled gets all baboons across, and then the shared state is
what it was before the first one came.
-/
import OperatingSystem.Baboon.Crossing
import OperatingSystem.Lib.Ranked

namespace OperatingSystem.Baboon

open Lib (Ranked Stuck tally tally_update)

-- ============================================================= the measure

/-- How many steps a baboon of `baboon40.c` has left, at most. -/
def Pc.ahead : Pc → Nat
  | .done => 0
  | .postLeave => 1
  | .postRope => 2
  | .testLast => 3
  | .writeLeave _ => 4
  | .readLeave => 5
  | .waitLeave => 6
  | .cross => 7
  | .postStarvation => 8
  | .postEnter => 9
  | .onRope => 10
  | .waitRope => 11
  | .testFirst => 12
  | .writeEnter _ => 13
  | .readEnter => 14
  | .waitEnter => 15
  | .waitStarvation => 16

/-- How many steps a baboon has left, at most: `baboon39.c` goes past
`postStarvation`. -/
def Pc.left (v : Version) (p : Pc) : Nat :=
  if v = .baboon39 ∧ 8 < p.ahead then p.ahead - 1 else p.ahead

/-- The steps of a whole crossing, at most: 14 and 16. -/
def longest (v : Version) : Nat := (entry v).left v

variable {ι : Type*} [DecidableEq ι] {v : Version} {dir : ι → Direction}
  {i : ι} {s s' t : State ι}

/-- A step leads forward. -/
theorem Fires.drops (h : Fires v dir i s s') :
    (s'.pc i).left v < (s.pc i).left v := by
  cases h with
  | takeDirection hpc | load hpc | display hpc =>
      rcases hpc with ⟨hpc, rfl⟩ | ⟨hpc, rfl⟩
      all_goals
        rw [hpc]
        cases v <;> simp [Pc.left, Pc.ahead, State.setDirectionLock,
          State.setStatus]
  | giveDirection hpc =>
      rcases hpc with ⟨hpc, rfl⟩ | ⟨hpc, rfl⟩
      all_goals
        rw [hpc]
        cases v <;> simp [Pc.left, Pc.ahead, afterPostEnter,
          State.setDirectionLock]
  | takeStarvation hpc | giveStarvation hpc | takeRope hpc | giveRope hpc
  | increment hpc | decrement hpc | isFirst hpc | notFirst hpc | isLast hpc
  | notLast hpc =>
      rw [hpc]
      cases v <;> simp [Pc.left, Pc.ahead, State.setTwoSideBaboons]

variable [Fintype ι]

/-- The steps all baboons together have left, at most. -/
def State.left (v : Version) (s : State ι) : Nat :=
  tally (fun _ p => p.left v) s.pc

/-- The protocol runs down. -/
theorem ranked (v : Version) (dir : ι → Direction) :
    Ranked (system v dir) (Inv v dir) (State.left v) where
  keep _ _ _ hI hst := hI.step (fires_of_step hst)
  drops i s s' _ hst := by
    have hf := fires_of_step hst
    have hmove := tally_update (fun _ p => Pc.left v p) s.pc i (s'.pc i)
    rw [← hf.pc_eq] at hmove
    have hdrop := hf.drops
    unfold State.left
    omega

omit [DecidableEq ι] in
theorem left_initial (v : Version) :
    (initial v : State ι).left v = Fintype.card ι * longest v := by
  simp [State.left, tally, initial, longest]

/-- No state has more steps left than the first one. -/
theorem left_reachable (h : Reachable v dir s) :
    s.left v ≤ Fintype.card ι * longest v := by
  refine (h.invariant (I := fun s => Inv v dir s
    ∧ s.left v ≤ Fintype.card ι * longest v) ?_ ?_).2
  · rintro t rfl
    exact ⟨inv_initial v dir, (left_initial v).le⟩
  · rintro i t t' ⟨hI, hle⟩ - hst
    exact ⟨(ranked v dir).keep i t t' hI hst,
      ((ranked v dir).drops i t t' hI hst).le.trans hle⟩

-- ========================================================= the whole crossing

/-- Everybody is done, and the shared state is as in the beginning. -/
structure Over (s : State ι) : Prop where
  done : ∀ i, s.pc i = .done
  twoSideBaboons : ∀ d, s.twoSideBaboons d = 0
  directionLock : ∀ d, s.directionLock d = 1
  ropeLock : s.ropeLock = 1
  starvation : s.starvation = 1

theorem over_of_stuck (hI : Inv v dir s) (h : Stuck (system v dir) s) :
    Over s := by
  have hdone := done_of_stuck hI h
  obtain ⟨hcounter, hlock, hrope, hstarve⟩ := hI.restored hdone
  exact ⟨hdone, hcounter, hlock, hrope, hstarve⟩

/-- Whatever order the steps come in, from any reachable state of either
program: no run has more than 14 steps a baboon (16 in `baboon40.c`), a run
that cannot go on has everybody done and every lock and counter restored,
and any run can go on until then. -/
theorem crossing_ends (h : Reachable v dir s) {steps : List ι}
    (hrun : Lib.run (system v dir) steps s = some t) :
    steps.length ≤ Fintype.card ι * longest v
      ∧ (Stuck (system v dir) t → Over t)
      ∧ ∃ rest t', Lib.run (system v dir) rest t = some t' ∧ Over t' := by
  have hI := inv_reachable h
  have hIt := (ranked v dir).run_keeps hI hrun
  refine ⟨?_, over_of_stuck hIt, ?_⟩
  · have hle := (ranked v dir).length_le steps hI hrun
    have hall := left_reachable h
    omega
  · obtain ⟨rest, t', hrest, hIt', hend⟩ := (ranked v dir).ends hIt
    exact ⟨rest, t', hrest, over_of_stuck hIt' hend⟩

/-- The theorem where two baboons of `baboon40.c` come from either side and
one of them is on the rope. -/
theorem crossing_ends_two : ∃ s : State (Fin 2),
    Lib.run (system .baboon40 ![.east, .west]) [0, 0, 0, 0, 0, 0, 0]
        (initial .baboon40) = some s
      ∧ [0, 0, 0, 0, 0, 0, 0].length ≤ Fintype.card (Fin 2) * longest .baboon40
      ∧ ∃ rest t', Lib.run (system .baboon40 ![.east, .west]) rest s = some t'
        ∧ Over t' := by
  have hends := @crossing_ends (Fin 2) _ .baboon40 ![.east, .west]
    (initial .baboon40) _ _ (Lib.reach_of_run [] rfl rfl)
    [0, 0, 0, 0, 0, 0, 0] rfl
  exact ⟨_, rfl, hends.1, hends.2.2⟩

end OperatingSystem.Baboon
