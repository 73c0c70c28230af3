/-
Who may pass a baboon that waits for the rope.

In `baboon39.c` everybody of the other side: as long as one of them is on
the rope the others walk past the counter without touching `ropeLock`, one
after the other, and the rope never becomes free (`rope_starves`). This is
what `starvation` is for in `baboon40.c`.
-/
import OperatingSystem.Baboon.Inv

namespace OperatingSystem.Baboon

variable {ι : Type*} [DecidableEq ι] {dir : ι → Direction} {j e w : ι}
  {s t : State ι} {d : Direction}

/-- Baboon `i` has crossed and has left. -/
def State.crossing (s : State ι) (i : ι) : State ι :=
  (s.setStatus i .crossed).goto i .done

/-- Past a baboon of its direction that is on the rope a baboon crosses in
twelve steps, and leaves no other trace. -/
theorem pass (hj : s.pc j = .waitEnter) (hcount : 1 ≤ s.twoSideBaboons (dir j))
    (hlock : s.directionLock (dir j) = 1) :
    Lib.run (system .baboon39 dir) (List.replicate 12 j) s
      = some (s.crossing j) := by
  have hsecond : ¬s.twoSideBaboons (dir j) + 1 = 1 := by omega
  have hlast : ¬s.twoSideBaboons (dir j) = 0 := by omega
  have hrestored : Function.update s.directionLock (dir j) 1
      = s.directionLock := by
    rw [← hlock, Function.update_eq_self]
  simp [List.replicate, Lib.run, system, flyBaboonsFly, hj, hlock, hsecond,
    hlast, semWait, semPost, State.goto, State.setDirectionLock,
    State.setTwoSideBaboons, State.setStatus, State.crossing, afterPostEnter,
    hrestored]

/-- Baboon `e`, the first of its side, is on the rope. -/
def State.boarding (dir : ι → Direction) (e : ι) (s : State ι) : State ι :=
  ({ s.setTwoSideBaboons (dir e) 1 with ropeLock := 0 }.setStatus e
    .onrope).goto e .cross

theorem board (he : s.pc e = .waitEnter) (hcount : s.twoSideBaboons (dir e) = 0)
    (hlock : s.directionLock (dir e) = 1) (hrope : s.ropeLock = 1) :
    Lib.run (system .baboon39 dir) (List.replicate 7 e) s
      = some (s.boarding dir e) := by
  have hrestored : Function.update s.directionLock (dir e) 1
      = s.directionLock := by
    rw [← hlock, Function.update_eq_self]
  simp [List.replicate, Lib.run, system, flyBaboonsFly, he, hlock, hcount,
    hrope, semWait, semPost, State.goto, State.setDirectionLock,
    State.setTwoSideBaboons, State.setStatus, State.boarding, afterPostEnter,
    hrestored]

/-- Baboon `w`, the first of its side, is about to wait for the rope. -/
def State.queued (dir : ι → Direction) (w : ι) (s : State ι) : State ι :=
  ((s.setTwoSideBaboons (dir w) 1).setDirectionLock (dir w) 0).goto w .waitRope

theorem queue (hw : s.pc w = .waitEnter) (hcount : s.twoSideBaboons (dir w) = 0)
    (hlock : s.directionLock (dir w) = 1) :
    Lib.run (system .baboon39 dir) (List.replicate 4 w) s
      = some (s.queued dir w) := by
  simp [List.replicate, Lib.run, system, flyBaboonsFly, hw, hlock, hcount,
    semWait, State.goto, State.setDirectionLock, State.setTwoSideBaboons,
    State.queued]

/-- Any number of baboons passes, one after the other. -/
theorem pass_all (hcount : 1 ≤ s.twoSideBaboons d)
    (hlock : s.directionLock d = 1) : ∀ (J : List ι), J.Nodup →
    (∀ j ∈ J, dir j = d ∧ s.pc j = .waitEnter) →
    ∃ steps t, Lib.run (system .baboon39 dir) steps s = some t
      ∧ (∀ j ∈ J, t.pc j = .done) ∧ ∀ i ∉ J, t.pc i = s.pc i := by
  intro J
  induction J generalizing s with
  | nil => exact fun _ _ => ⟨[], s, rfl, nofun, fun _ _ => rfl⟩
  | cons j J ih =>
      intro hnodup hJ
      obtain ⟨hfresh, hnodup⟩ := List.nodup_cons.mp hnodup
      obtain ⟨rfl, hj⟩ := hJ j List.mem_cons_self
      have hrest : ∀ k ∈ J, dir k = dir j ∧ (s.crossing j).pc k = .waitEnter := by
        intro k hk
        obtain ⟨hd, hpc⟩ := hJ k (List.mem_cons_of_mem _ hk)
        have hne : k ≠ j := fun heq => hfresh (heq ▸ hk)
        refine ⟨hd, ?_⟩
        rw [State.crossing, goto_pc, Function.update_of_ne hne]
        exact hpc
      obtain ⟨steps, t, hrun, hdone, hkept⟩ :=
        ih (s := s.crossing j) hcount hlock hnodup hrest
      refine ⟨List.replicate 12 j ++ steps, t, ?_, ?_, ?_⟩
      · exact Lib.run_append _ (pass hj hcount hlock) hrun
      · intro k hk
        rcases List.mem_cons.mp hk with rfl | hk
        · rw [hkept k hfresh, State.crossing, goto_pc, Function.update_self]
        · exact hdone k hk
      · intro k hk
        obtain ⟨hne, hk⟩ := not_or.mp (mt List.mem_cons.mpr hk)
        rw [hkept k hk, State.crossing, goto_pc, Function.update_of_ne hne]
        rfl

/-- In `baboon39.c` a baboon that waits for the rope waits for any number of
others: if there is a baboon on either side, in some run the one of the one
side comes to `sem_wait(ropeLock)` before anybody else of the other side but
one has even entered, and all these others are done before it moves. -/
theorem rope_starves [Fintype ι] (dir : ι → Direction) (hside : dir e ≠ dir w) :
    ∃ before s after t,
      Lib.run (system .baboon39 dir) before (initial .baboon39) = some s
        ∧ s.pc w = .waitRope
        ∧ (∀ j, j ≠ e → j ≠ w → s.pc j = .waitEnter)
        ∧ Lib.run (system .baboon39 dir) after s = some t
        ∧ t.pc w = .waitRope
        ∧ ∀ j, dir j = dir e → j ≠ e → t.pc j = .done := by
  have hne : e ≠ w := fun heq => hside (heq ▸ rfl)
  let s₁ : State ι := State.boarding dir e (initial .baboon39)
  let s : State ι := State.queued dir w s₁
  have hboard : Lib.run (system .baboon39 dir) (List.replicate 7 e)
      (initial .baboon39) = some s₁ := board rfl rfl rfl rfl
  have hqueue : Lib.run (system .baboon39 dir) (List.replicate 4 w) s₁
      = some s := by
    refine queue ?_ ?_ rfl
    · exact Function.update_of_ne hne.symm _ _
    · exact Function.update_of_ne hside.symm _ _
  have hw : s.pc w = .waitRope := Function.update_self _ _ _
  have hothers : ∀ j, j ≠ e → j ≠ w → s.pc j = .waitEnter := by
    intro j hje hjw
    exact (Function.update_of_ne hjw _ _).trans (Function.update_of_ne hje _ _)
  have hcount : s.twoSideBaboons (dir e) = 1 :=
    (Function.update_of_ne hside _ _).trans (Function.update_self _ _ _)
  have hlock : s.directionLock (dir e) = 1 := Function.update_of_ne hside _ _
  let J := (Finset.univ.filter fun j => dir j = dir e ∧ j ≠ e).toList
  have hJ : ∀ j, j ∈ J ↔ dir j = dir e ∧ j ≠ e := by simp [J]
  have hwait : ∀ j ∈ J, dir j = dir e ∧ s.pc j = .waitEnter := by
    intro j hj
    obtain ⟨hd, hje⟩ := (hJ j).mp hj
    exact ⟨hd, hothers j hje fun heq => hside (heq ▸ hd).symm⟩
  obtain ⟨after, t, ht, hdone, hkept⟩ :=
    pass_all hcount.ge hlock J (Finset.nodup_toList _) hwait
  refine ⟨_, s, after, t, Lib.run_append _ hboard hqueue, hw, hothers, ht, ?_,
    fun j hd hje => hdone j ((hJ j).mpr ⟨hd, hje⟩)⟩
  rw [hkept w fun hmem => hside ((hJ w).mp hmem).1.symm]
  exact hw

/-- The theorem with one baboon to the west and two to the east. -/
theorem rope_starves_three : ∃ before s after t,
    Lib.run (system .baboon39 ![.east, .west, .east]) before
        (initial .baboon39) = some s
      ∧ s.pc 1 = .waitRope ∧ s.pc 2 = .waitEnter
      ∧ Lib.run (system .baboon39 ![.east, .west, .east]) after s = some t
      ∧ t.pc 1 = .waitRope ∧ t.pc 2 = .done := by
  obtain ⟨before, s, after, t, hs, hw, hothers, ht, hw', hdone⟩ :=
    rope_starves (e := 0) (w := 1) ![.east, .west, .east] (by decide)
  exact ⟨before, s, after, t, hs, hw, hothers 2 (by decide) (by decide), ht,
    hw', hdone 2 (by decide) (by decide)⟩

end OperatingSystem.Baboon
