/-
What the rope protocol guarantees, for any number of baboons and any
interleaving: traffic on the rope is one-directional, the protocol never
deadlocks, and once everybody has crossed the shared state is back where
it started.

# The deadlock argument

A blocked process sits at one of the four waits. Ask who sits at
`waitRope`:

- somebody does: the rope is then owned by the OTHER direction, and what
  speaks for that direction can only be a baboon at `waitLeave` whose
  direction lock is taken. The lock's holder is blocked too, hence at
  `waitRope` for that other direction, where its counter would have to be
  1 while it counts two;
- nobody does: no direction lock is held by a blocked process, so both
  are free and everybody left waits for `starvation`, whose holder would
  have to be at one of the other waits.
-/
import OperatingSystem.Baboon.Inv

namespace OperatingSystem.Baboon

open Lib (tally weight_add_le_tally exists_of_tally_pos tally_eq_zero)

variable {ι : Type*} [Fintype ι] [DecidableEq ι] {v : Version}
  {dir : ι → Direction} {s : State ι}

-- ========================================================== one direction

omit [DecidableEq ι] in
/-- The rope has one owner. -/
theorem Inv.held_unique (hI : Inv v dir s) {d e : Direction}
    (hd : Held dir s d) (he : Held dir s e) : d = e := by
  obtain ⟨o, -, howner⟩ := hI.rope
  exact Option.some.inj (((howner d).mp hd).symm.trans ((howner e).mp he))

/-- No reachable state of either program has an eastbound and a westbound
baboon both on the rope. -/
theorem one_way_rope (h : Reachable v dir s) :
    ¬∃ i j, dir i = .east ∧ dir j = .west ∧ OnTheRope s i ∧ OnTheRope s j := by
  rintro ⟨i, j, hi, hj, hoi, hoj⟩
  have hew := (inv_reachable h).held_unique ⟨i, hi, .inl hoi⟩ ⟨j, hj, .inl hoj⟩
  cases hew

/-- The theorem at a state where the eastbound of two baboons has just
taken the rope. -/
theorem one_way_rope_meeting : ∃ s : State (Fin 2),
    Lib.run (system .baboon40 ![.east, .west]) [0, 0, 0, 0, 0, 0]
        (initial .baboon40) = some s
      ∧ OnTheRope s 0
      ∧ ¬∃ i j, ![Direction.east, .west] i = .east
          ∧ ![Direction.east, .west] j = .west
          ∧ OnTheRope s i ∧ OnTheRope s j := by
  refine ⟨_, rfl, rfl, one_way_rope (v := .baboon40) ?_⟩
  exact Lib.reach_of_run [0, 0, 0, 0, 0, 0] rfl rfl

-- ========================================================= no deadlock

omit [Fintype ι] in
/-- Where a process with no enabled step is. -/
theorem blocked_cases {i : ι} (h : flyBaboonsFly v dir i s = none) :
    s.pc i = .done
    ∨ s.pc i = .waitStarvation ∧ s.starvation = 0
    ∨ s.pc i = .waitEnter ∧ s.directionLock (dir i) = 0
    ∨ s.pc i = .waitRope ∧ s.ropeLock = 0
    ∨ s.pc i = .waitLeave ∧ s.directionLock (dir i) = 0 := by
  unfold flyBaboonsFly at h
  split at h
  case h_1 hpc =>
    exact .inr (.inl ⟨hpc, semWait_eq_none (Option.map_eq_none_iff.mp h)⟩)
  case h_2 hpc =>
    exact .inr (.inr (.inl
      ⟨hpc, semWait_eq_none (Option.map_eq_none_iff.mp h)⟩))
  case h_6 hpc =>
    exact .inr (.inr (.inr (.inl
      ⟨hpc, semWait_eq_none (Option.map_eq_none_iff.mp h)⟩)))
  case h_11 hpc =>
    exact .inr (.inr (.inr (.inr
      ⟨hpc, semWait_eq_none (Option.map_eq_none_iff.mp h)⟩)))
  case h_17 hpc => exact .inl hpc
  case h_5 => split at h <;> cases h
  case h_14 => split at h <;> cases h
  all_goals cases h

omit [Fintype ι] in
/-- What speaks for a direction and is blocked waits to leave. -/
theorem keeper_waits_leave {j : ι} (hj : KeepsRope dir s j)
    (hstuck : flyBaboonsFly v dir j s = none) :
    s.pc j = .waitLeave ∧ s.directionLock (dir j) = 0 := by
  rcases blocked_cases hstuck with hp | ⟨hp, -⟩ | ⟨hp, -⟩ | ⟨hp, -⟩ | hp
  case inr.inr.inr.inr => exact hp
  all_goals simp [KeepsRope, OnTheRope, hp, Pc.onTheRope] at hj

section Stuck

variable (hI : Inv v dir s) (hstuck : ∀ i, flyBaboonsFly v dir i s = none)
include hI hstuck

/-- In a stuck state a taken direction lock is held by a process waiting
for the rope. -/
theorem holder_waits_rope {d : Direction} (hd : s.directionLock d = 0) :
    ∃ j, dir j = d ∧ s.pc j = .waitRope := by
  have hlock := hI.lock d
  obtain ⟨j, hj⟩ := exists_of_tally_pos (w := side dir d Pc.inSection)
    (f := s.pc) (by omega)
  obtain ⟨hdj, hin⟩ := side_pos hj
  refine ⟨j, hdj, ?_⟩
  rcases blocked_cases (hstuck j) with hp | ⟨hp, -⟩ | ⟨hp, -⟩ | ⟨hp, -⟩ | ⟨hp, -⟩
  case inr.inr.inr.inl => exact hp
  all_goals simp [hp, Pc.inSection] at hin

/-- Nobody waits for the rope in a stuck state. -/
theorem nobody_waits_rope (i : ι) : s.pc i ≠ .waitRope := by
  intro hi
  have hrope : s.ropeLock = 0 := by
    rcases blocked_cases (hstuck i) with hp | ⟨hp, -⟩ | ⟨hp, -⟩ | ⟨-, hr⟩ | ⟨hp, -⟩
    case inr.inr.inr.inl => exact hr
    all_goals simp [hp] at hi
  obtain ⟨o, hfree, howner⟩ := hI.rope
  obtain ⟨d, rfl⟩ : ∃ d, o = some d := by
    cases o with
    | none => simp [hrope] at hfree
    | some d => exact ⟨d, rfl⟩
  -- the owner's spokesman is blocked behind a lock held at `waitRope`
  obtain ⟨j, rfl, hj⟩ := (howner d).mpr rfl
  obtain ⟨hleave, hlock⟩ := keeper_waits_leave hj (hstuck j)
  obtain ⟨k, hdk, hk⟩ := holder_waits_rope hI hstuck hlock
  have hne : k ≠ j := fun he => by simp [he, hleave] at hk
  have hpair := weight_add_le_tally (side dir (dir j) Pc.counted) s.pc hne
  have hone := hI.first hk
  rw [hdk] at hone
  have hsum := hI.counter (dir j)
  rw [hone] at hsum
  simp only [side, hdk, hk, hleave, Pc.counted, Pc.onTheRope, and_self,
    if_true] at hpair
  omega

/-- A stuck state is one in which everybody is done. -/
theorem done_of_stuck (i : ι) : s.pc i = .done := by
  have hfree : ∀ d, s.directionLock d ≠ 0 := fun d hd => by
    obtain ⟨j, -, hj⟩ := holder_waits_rope hI hstuck hd
    exact nobody_waits_rope hI hstuck j hj
  -- hence everybody who is not done waits for `starvation`
  have hwait : ∀ j, s.pc j = .done
      ∨ s.pc j = .waitStarvation ∧ s.starvation = 0 := by
    intro j
    rcases blocked_cases (hstuck j) with hp | hp | ⟨-, hl⟩ | ⟨hp, -⟩ | ⟨-, hl⟩
    · exact .inl hp
    · exact .inr hp
    · exact absurd hl (hfree _)
    · exact absurd hp (nobody_waits_rope hI hstuck j)
    · exact absurd hl (hfree _)
  have hnone : tally (either (Pc.inEntry v)) s.pc = 0 :=
    tally_eq_zero fun j => by
      rcases hwait j with hp | ⟨hp, -⟩ <;> cases v <;>
        simp [either, hp, Pc.inEntry]
  rcases hwait i with hp | ⟨-, hz⟩
  · exact hp
  · have := hI.starve
    omega

end Stuck

omit [DecidableEq ι] in
/-- When everybody is done every lock is back at 1 and every counter at
0. -/
theorem Inv.restored (hI : Inv v dir s) (hdone : ∀ i, s.pc i = .done) :
    (∀ d, s.twoSideBaboons d = 0) ∧ (∀ d, s.directionLock d = 1)
      ∧ s.ropeLock = 1 ∧ s.starvation = 1 := by
  have hside : ∀ d (P : Pc → Bool), P .done = false →
      tally (side dir d P) s.pc = 0 := fun d P hP =>
    tally_eq_zero fun i => by simp [side, hdone i, hP]
  refine ⟨fun d => ?_, fun d => ?_, ?_, ?_⟩
  · rw [hI.counter d, hside d _ rfl]
    rfl
  · have := hI.lock d
    rw [hside d _ rfl] at this
    omega
  · obtain ⟨o, hfree, howner⟩ := hI.rope
    have ho : o = none := by
      cases o with
      | none => rfl
      | some d =>
          obtain ⟨i, -, hi⟩ := (howner d).mpr rfl
          simp [KeepsRope, OnTheRope, hdone i, Pc.onTheRope] at hi
    rw [hfree, if_pos ho]
  · have := hI.starve
    rw [show tally (either (Pc.inEntry v)) s.pc = 0 from
      tally_eq_zero fun i => by cases v <;> simp [either, hdone i, Pc.inEntry]]
      at this
    omega

/-- Both programs complete: while some baboon has not finished somebody's
next step is enabled, and when all have finished both counters are 0 and
every semaphore is back to 1. -/
theorem crossing_completes (h : Reachable v dir s) :
    ((∃ i, s.pc i ≠ .done) → ∃ i s', flyBaboonsFly v dir i s = some s')
    ∧ ((∀ i, s.pc i = .done) →
        (∀ d, s.twoSideBaboons d = 0) ∧ (∀ d, s.directionLock d = 1)
          ∧ s.ropeLock = 1 ∧ (v = .baboon40 → s.starvation = 1)) := by
  have hI := inv_reachable h
  constructor
  · rintro ⟨i, hi⟩
    by_contra hnone
    push Not at hnone
    refine hi (done_of_stuck hI (fun j => ?_) i)
    cases hst : flyBaboonsFly v dir j s with
    | none => rfl
    | some s' => exact absurd hst (hnone j s')
  · intro hdone
    obtain ⟨hc, hl, hr, hs⟩ := hI.restored hdone
    exact ⟨hc, hl, hr, fun _ => hs⟩

/-- The theorem for two baboons from opposite sides: where the second one is
blocked the first one can still move, and where both are over everything is
restored. -/
theorem crossing_completes_opposed :
    (∃ s : State (Fin 2), Lib.run (system .baboon39 ![.east, .west])
        [0, 0, 0, 0, 0, 1, 1, 1, 1] (initial .baboon39) = some s
      ∧ flyBaboonsFly .baboon39 ![.east, .west] 1 s = none
      ∧ ∃ i s', flyBaboonsFly .baboon39 ![.east, .west] i s = some s')
    ∧ ∃ s : State (Fin 2), Lib.run (system .baboon40 ![.east, .west])
        (List.replicate 16 0 ++ List.replicate 16 1) (initial .baboon40)
        = some s
      ∧ (∀ i, s.pc i = .done) ∧ (∀ d, s.twoSideBaboons d = 0)
      ∧ (∀ d, s.directionLock d = 1) ∧ s.ropeLock = 1 ∧ s.starvation = 1 := by
  constructor
  · refine ⟨_, rfl, rfl, (crossing_completes (v := .baboon39) ?_).1 ⟨1, ?_⟩⟩
    · exact Lib.reach_of_run [0, 0, 0, 0, 0, 1, 1, 1, 1] rfl rfl
    · decide
  · let s := (Lib.run (system .baboon40 ![.east, .west])
      (List.replicate 16 0 ++ List.replicate 16 1) (initial .baboon40)).get
      (by decide +kernel)
    have hrun : Lib.run (system .baboon40 ![.east, .west])
        (List.replicate 16 0 ++ List.replicate 16 1) (initial .baboon40)
        = some s := (Option.some_get _).symm
    have hdone : ∀ i, s.pc i = .done := by decide +kernel
    obtain ⟨hcount, hlock, hrope, hstarve⟩ :=
      (crossing_completes (Lib.reach_of_run _ rfl hrun)).2 hdone
    exact ⟨s, hrun, hdone, hcount, hlock, hrope, hstarve rfl⟩

end OperatingSystem.Baboon
