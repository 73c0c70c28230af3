/-
What `starvation` changes: `baboon40.c` is `baboon39.c` with one baboon at a
time in the entry section.

Forgetting the semaphore and the two accesses to it turns a state of
`baboon40.c` into one of `baboon39.c` (`State.in39`), and a run into a run in
which a baboon takes its direction lock only when nobody is between taking
it and giving it back on the way in (`Alone`): whoever holds `starvation` is
the only one there (`forgets`). Every such run of `baboon39.c` comes from one
of `baboon40.c`: `starvation` is taken just before the direction lock and
given back right behind it (`inserts`).
-/
import OperatingSystem.Baboon.Inv
import OperatingSystem.Lib.Simulation

namespace OperatingSystem.Baboon

open Lib (tally tally_eq_zero weight_le_tally weight_add_le_tally)

-- ============================================ a state of the other program

/-- Where a process of `baboon40.c` is in the text of `baboon39.c`. -/
def Pc.in39 : Pc → Pc
  | .waitStarvation => .waitEnter
  | .postStarvation => .cross
  | p => p

/-- Between taking the direction lock and giving it back on the way in. -/
def Pc.entering : Pc → Bool
  | .readEnter | .writeEnter _ | .testFirst | .waitRope | .onRope
  | .postEnter => true
  | _ => false

variable {ι : Type*} {dir : ι → Direction} {i j : ι} {s s' t : State ι}

/-- The state without the `starvation` semaphore. -/
def State.in39 (s : State ι) : State ι :=
  { s with pc := fun i => (s.pc i).in39, starvation := 1 }

/-- A baboon about to take its direction lock on the way in finds nobody in
the entry section, on either side. -/
def Alone (i : ι) (s : State ι) : Prop :=
  s.pc i = .waitEnter → ∀ j, (s.pc j).entering = false

/-- The accesses to `starvation`. -/
def Extra (i : ι) (s : State ι) : Prop := (s.pc i).onlyIn40 = true

instance (i : ι) (s : State ι) : Decidable (Extra i s) := by
  unfold Extra
  infer_instance

theorem in39_of_not_extra (h : ¬Extra i s) : (s.pc i).in39 = s.pc i := by
  unfold Extra at h
  cases hpc : s.pc i <;> simp_all [Pc.in39, Pc.onlyIn40]

theorem entering_in39 (p : Pc) : p.in39.entering = p.entering := by
  cases p <;> rfl

variable [DecidableEq ι]

@[simp] theorem in39_goto (s : State ι) (i : ι) (p : Pc) :
    (s.goto i p).in39 = s.in39.goto i p.in39 := by
  unfold State.goto State.in39
  congr 1
  exact funext fun j => Function.apply_update (fun _ => Pc.in39) s.pc i p j

theorem goto_self {p : Pc} (h : s.pc i = p) : s.goto i p = s := by
  unfold State.goto
  rw [← h, Function.update_eq_self]

-- ================================================== a step of either program

variable (dir) in
/-- Away from `starvation` the two programs make the same step. -/
theorem step_in39 (h : ¬Extra i s) :
    (flyBaboonsFly .baboon40 dir i s).map State.in39
      = flyBaboonsFly .baboon39 dir i s.in39 := by
  unfold flyBaboonsFly
  rw [show s.in39.pc i = s.pc i from in39_of_not_extra h]
  cases hpc : s.pc i with
  | waitStarvation | postStarvation => simp [Extra, hpc, Pc.onlyIn40] at h
  | waitEnter | waitRope | waitLeave =>
      dsimp only
      rw [Option.map_map]
      refine congrArg (Option.map · _) (funext fun n => ?_)
      exact in39_goto _ i _
  | testFirst | testLast =>
      dsimp only
      rw [apply_ite (Option.map State.in39), Option.map_some, Option.map_some,
        in39_goto, in39_goto]
      rfl
  | done => rfl
  | _ => exact congrArg some (in39_goto _ i _)

/-- An access to `starvation` cannot be seen. -/
theorem in39_of_extra (h : Extra i s)
    (hst : flyBaboonsFly .baboon40 dir i s = some s') : s'.in39 = s.in39 := by
  unfold Extra at h
  cases fires_of_step hst with
  | takeStarvation hpc | giveStarvation hpc =>
      rw [in39_goto]
      refine goto_self (s := s.in39) ?_
      rw [show s.in39.pc i = (s.pc i).in39 from rfl, hpc]
      rfl
  | takeDirection hpc | giveDirection hpc | load hpc | display hpc =>
      rcases hpc with ⟨hpc, -⟩ | ⟨hpc, -⟩ <;> simp [hpc, Pc.onlyIn40] at h
  | takeRope hpc | giveRope hpc | increment hpc | decrement hpc
  | isFirst hpc | notFirst hpc | isLast hpc | notLast hpc =>
      simp [hpc, Pc.onlyIn40] at h

/-- Only an access to `starvation` leads to the direction lock's wait. -/
theorem pc_ne_waitEnter (h : ¬Extra i s)
    (hst : flyBaboonsFly .baboon40 dir i s = some s') :
    s'.pc i ≠ .waitEnter := by
  unfold Extra at h
  cases fires_of_step hst with
  | takeStarvation hpc => exact absurd (by rw [hpc]; rfl) h
  | takeDirection hpc | giveDirection hpc | load hpc | display hpc =>
      rcases hpc with ⟨-, rfl⟩ | ⟨-, rfl⟩ <;> simp [afterPostEnter]
  | _ => simp

/-- The program that lacks the semaphore steps, so the other one does. -/
theorem step_of_in39 (h : ¬Extra i s)
    (hst : flyBaboonsFly .baboon39 dir i s.in39 = some t) :
    ∃ s', flyBaboonsFly .baboon40 dir i s = some s' ∧ s'.in39 = t := by
  rw [← step_in39 dir h] at hst
  exact Option.map_eq_some_iff.mp hst

variable (dir) in
/-- The permit is taken when it is needed. -/
theorem take_starvation (hpc : s.pc i = .waitStarvation)
    (hfree : s.starvation = 1) : ∃ s', flyBaboonsFly .baboon40 dir i s = some s'
      ∧ s'.pc i = .waitEnter := by
  refine ⟨{ s with starvation := 0 }.goto i .waitEnter, ?_, by simp⟩
  unfold flyBaboonsFly
  rw [hpc, hfree]
  rfl

variable (dir) in
/-- And it is given back at once. -/
theorem give_starvation (hpc : s.pc i = .postStarvation) :
    ∃ s', flyBaboonsFly .baboon40 dir i s = some s' ∧ s'.pc i = .cross := by
  refine ⟨{ s with starvation := semPost s.starvation }.goto i .cross, ?_,
    by simp⟩
  unfold flyBaboonsFly
  rw [hpc]

section Runs

variable [Fintype ι]

theorem entering_inEntry {p : Pc} (h : p.entering = true) :
    p.inEntry .baboon40 = true := by
  cases p <;> simp_all [Pc.entering, Pc.inEntry]

/-- Whoever waits for its direction lock on the way in holds `starvation`,
so nobody else is in the entry section. -/
theorem Inv.nobody_entering (hI : Inv .baboon40 dir s)
    (hi : s.pc i = .waitEnter) (j : ι) : (s.pc j).entering = false := by
  by_contra hj
  rw [Bool.not_eq_false] at hj
  have hne : j ≠ i := by
    rintro rfl
    rw [hi] at hj
    cases hj
  have hpair := weight_add_le_tally (either (Pc.inEntry .baboon40)) s.pc hne
  have hstarve := hI.starve
  have hwaiting : (s.pc i).inEntry .baboon40 = true := by rw [hi]; rfl
  unfold either at hpair hstarve
  rw [if_pos (entering_inEntry hj), if_pos hwaiting] at hpair
  omega

/-- `baboon40.c` does nothing but what `baboon39.c` does, in turn. -/
theorem forgets : Lib.Simulates (system .baboon40 dir)
    (system .baboon39 dir) State.in39 Extra Alone (Inv .baboon40 dir) where
  keeps _ _ _ hI hst := hI.step (fires_of_step hst)
  stutter _ _ _ _ hextra hst := in39_of_extra hextra hst
  follows := by
    intro i s s' hI hextra hst
    have hstep := step_in39 dir hextra
    rw [show flyBaboonsFly .baboon40 dir i s = some s' from hst,
      Option.map_some] at hstep
    refine ⟨fun hpc j => ?_, hstep.symm⟩
    have hi : s.pc i = .waitEnter :=
      (in39_of_not_extra hextra).symm.trans hpc
    exact (entering_in39 _).trans (hI.nobody_entering hi j)

/-- Nobody has taken `starvation` without having taken its direction lock,
nor given the one back and not yet the other. -/
def Between (s : State ι) : Prop :=
  ∀ j, s.pc j ≠ .waitEnter ∧ s.pc j ≠ .postStarvation

omit [Fintype ι] in
theorem Between.step (h : Between s)
    (hst : flyBaboonsFly .baboon40 dir i s = some s')
    (hi : s'.pc i ≠ .waitEnter ∧ s'.pc i ≠ .postStarvation) : Between s' := by
  intro j
  by_cases hne : j = i
  · rw [hne]
    exact hi
  · rw [(fires_of_step hst).pc_ne hne]
    exact h j

omit [DecidableEq ι] in
/-- With nobody in the entry section `starvation` is free. -/
theorem Inv.starvation_free (hI : Inv .baboon40 dir s) (hB : Between s)
    (h : ∀ j, (s.pc j).entering = false) : s.starvation = 1 := by
  have hzero : tally (either (Pc.inEntry .baboon40)) s.pc = 0 := by
    refine tally_eq_zero fun j => ?_
    have hj := h j
    obtain ⟨hwait, hpost⟩ := hB j
    unfold either
    rw [if_neg]
    cases hpc : s.pc j <;> simp_all [Pc.entering, Pc.inEntry]
  have hstarve := hI.starve
  omega

/-- After a step that is not an access to `starvation` the permit may have
to be given back. -/
theorem lifts_last (hI : Inv .baboon40 dir s) (hextra : ¬Extra i s)
    (hothers : ∀ j, j ≠ i → s.pc j ≠ .waitEnter ∧ s.pc j ≠ .postStarvation)
    (hst : flyBaboonsFly .baboon39 dir i s.in39 = some t) :
    ∃ acts s', Lib.run (system .baboon40 dir) acts s = some s'
      ∧ Lib.without (system .baboon40 dir) Extra acts s = [i]
      ∧ s'.in39 = t ∧ Inv .baboon40 dir s' ∧ Between s' := by
  obtain ⟨s₁, hst₁, rfl⟩ := step_of_in39 hextra hst
  have hI₁ := hI.step (fires_of_step hst₁)
  have hfired := pc_ne_waitEnter hextra hst₁
  have hothers₁ : ∀ j, j ≠ i → s₁.pc j ≠ .waitEnter
      ∧ s₁.pc j ≠ .postStarvation := by
    intro j hne
    rw [(fires_of_step hst₁).pc_ne hne]
    exact hothers j hne
  by_cases hpost : s₁.pc i = .postStarvation
  case neg =>
    refine ⟨[i], s₁, Lib.run_cons hst₁, Lib.without_busy hst₁ hextra, rfl, hI₁,
      fun j => ?_⟩
    by_cases hne : j = i
    · rw [hne]
      exact ⟨hfired, hpost⟩
    · exact hothers₁ j hne
  case pos =>
    obtain ⟨s₂, hst₂, hcross⟩ := give_starvation dir hpost
    have hextra₂ : Extra i s₁ := by unfold Extra; rw [hpost]; rfl
    refine ⟨[i, i], s₂, ?_, ?_, in39_of_extra hextra₂ hst₂,
      hI₁.step (fires_of_step hst₂), fun j => ?_⟩
    · rw [Lib.run_cons hst₁, Lib.run_cons hst₂]
      rfl
    · rw [Lib.without_busy hst₁ hextra, Lib.without_idle hst₂ hextra₂]
      rfl
    · by_cases hne : j = i
      · rw [hne, hcross]
        exact ⟨by decide, by decide⟩
      · rw [(fires_of_step hst₂).pc_ne hne]
        exact hothers₁ j hne

/-- `baboon40.c` can do everything `baboon39.c` does in turn. -/
theorem inserts : Lib.Lifts (system .baboon40 dir) (system .baboon39 dir)
    State.in39 Extra Alone fun s => Inv .baboon40 dir s ∧ Between s where
  lifts := by
    intro i s t ⟨hI, hB⟩ halone hst
    by_cases hextra : Extra i s
    case neg => exact lifts_last hI hextra (fun j _ => hB j) hst
    case pos =>
      have hpc : s.pc i = .waitStarvation := by
        have hpost := (hB i).2
        unfold Extra at hextra
        cases hpc : s.pc i <;> simp_all [Pc.onlyIn40]
      have hnobody : ∀ j, (s.pc j).entering = false := by
        intro j
        rw [← entering_in39]
        refine halone ?_ j
        rw [show s.in39.pc i = (s.pc i).in39 from rfl, hpc]
        rfl
      obtain ⟨s₁, hst₁, hwait⟩ :=
        take_starvation dir hpc (hI.starvation_free hB hnobody)
      have hsame := in39_of_extra hextra hst₁
      have hextra₁ : ¬Extra i s₁ := by
        unfold Extra
        rw [hwait]
        exact Bool.false_ne_true
      have hothers : ∀ j, j ≠ i → s₁.pc j ≠ .waitEnter
          ∧ s₁.pc j ≠ .postStarvation := by
        intro j hne
        rw [(fires_of_step hst₁).pc_ne hne]
        exact hB j
      obtain ⟨acts, s', hrun, hacts, hview, hI', hB'⟩ := lifts_last
        (hI.step (fires_of_step hst₁)) hextra₁ hothers
        (hsame.symm ▸ hst : flyBaboonsFly .baboon39 dir i s₁.in39 = some t)
      exact ⟨i :: acts, s', (Lib.run_cons hst₁).trans hrun,
        (Lib.without_idle hst₁ hextra).trans hacts, hview, hI', hB'⟩

/-- The runs of `baboon40.c`, without the accesses to `starvation`, are
exactly the runs of `baboon39.c` in which a baboon takes its direction lock
on the way in only while nobody else is in the entry section; and they end in
the same counters, semaphores, places and statuses. -/
theorem versions_agree (dir : ι → Direction) (acts : List ι) (t : State ι) :
    (∃ acts' s, Lib.run (system .baboon40 dir) acts' (initial .baboon40)
        = some s
      ∧ Lib.without (system .baboon40 dir) Extra acts' (initial .baboon40)
        = acts
      ∧ s.in39 = t)
    ↔ Lib.run (system .baboon39 dir) acts (initial .baboon39) = some t
      ∧ Lib.Along (system .baboon39 dir) Alone acts (initial .baboon39) := by
  have hstart : (initial .baboon40 : State ι).in39 = initial .baboon39 := rfl
  rw [← hstart]
  constructor
  · rintro ⟨acts', s, hrun, rfl, rfl⟩
    exact forgets.run acts' (inv_initial .baboon40 dir) hrun
  · intro ⟨hrun, halone⟩
    have hbetween : Between (initial .baboon40 : State ι) :=
      fun j => ⟨by simp [initial, entry], by simp [initial, entry]⟩
    exact inserts.run acts ⟨inv_initial .baboon40 dir, hbetween⟩ halone hrun

end Runs

end OperatingSystem.Baboon
