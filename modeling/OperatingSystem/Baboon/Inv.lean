/-
The invariant of the rope protocol.

# Conservation

Each semaphore's permits and each counter are tied to the program
counters by a sum (`Lib.tally`): the free permits of a direction lock
plus the processes inside a section it guards make 1; the counter of a
direction is the number of its processes between the two stores. One
step moves one program counter, so each law reduces to a local equation
about the stepping process (`step_lock`, `step_starvation`,
`step_counter`).

# The rope's owner

`ropeLock` is taken by one baboon and released by another, so no single
process holds it. `Held s d` says that direction `d` does — one of its
baboons is on the rope, or is the last one on its way to
`sem_post(ropeLock)` — and `Inv.rope` that exactly the owner's direction
is held, the lock being free when there is no owner. A step changes
`Held` only at the two accesses to `ropeLock` itself: the first baboon's
wait (`waitRope`) and the last one's post (`postRope`); everywhere else
the counter vouches for another baboon still on the rope.
-/
import OperatingSystem.Baboon.Basic
import OperatingSystem.Lib.Tally

namespace OperatingSystem.Baboon

open Lib (tally tally_update weight_le_tally weight_add_le_tally
  exists_of_tally_pos exists_other_of_tally tally_eq_zero)

-- ================================================= what a process holds

/-- Inside a section guarded by its direction lock. -/
def Pc.inSection : Pc → Bool
  | .readEnter | .writeEnter _ | .testFirst | .waitRope | .onRope
  | .postEnter | .readLeave | .writeLeave _ | .testLast | .postRope
  | .postLeave => true
  | _ => false

/-- Between the store of the increment and the store of the
decrement. -/
def Pc.counted : Pc → Bool
  | .testFirst | .waitRope => true
  | p => p.onTheRope

/-- Holding `starvation`, which only `baboon40.c` takes. -/
def Pc.inEntry : Version → Pc → Bool
  | .baboon39, _ => false
  | .baboon40, p =>
      match p with
      | .waitEnter | .readEnter | .writeEnter _ | .testFirst | .waitRope
      | .onRope | .postEnter | .postStarvation => true
      | _ => false

/-- The steps `baboon39.c` does not have. -/
def Pc.onlyIn40 : Pc → Bool
  | .waitStarvation | .postStarvation => true
  | _ => false

/-- What a program counter says about its direction's counter: a store's
operand is its current value, and the two accesses to `ropeLock` follow
the tests that ask for them. -/
def Pc.Agrees (c : Int) : Pc → Prop
  | .writeEnter n | .writeLeave n => n = c
  | .waitRope => c = 1
  | .postRope => c = 0
  | _ => True

/-- Weight 1 for the processes of direction `d` whose program counter
satisfies `P`. -/
def side {ι : Type*} (dir : ι → Direction) (d : Direction) (P : Pc → Bool)
    (i : ι) (p : Pc) : Nat :=
  if dir i = d ∧ P p = true then 1 else 0

/-- Weight 1 for the processes whose program counter satisfies `P`. -/
def either {ι : Type*} (P : Pc → Bool) (_ : ι) (p : Pc) : Nat :=
  if P p = true then 1 else 0

variable {ι : Type*}

/-- Process `i` speaks for its direction's hold on the rope. -/
def KeepsRope (dir : ι → Direction) (s : State ι) (i : ι) : Prop :=
  OnTheRope s i ∨ s.pc i = .postRope
    ∨ s.pc i = .testLast ∧ s.twoSideBaboons (dir i) = 0

/-- Direction `d` holds the rope. -/
def Held (dir : ι → Direction) (s : State ι) (d : Direction) : Prop :=
  ∃ i, dir i = d ∧ KeepsRope dir s i

/-- The invariant of both programs. -/
structure Inv [Fintype ι] (v : Version) (dir : ι → Direction)
    (s : State ι) : Prop where
  lock : ∀ d, s.directionLock d + tally (side dir d Pc.inSection) s.pc = 1
  starve : s.starvation + tally (either (Pc.inEntry v)) s.pc = 1
  counter : ∀ d,
    s.twoSideBaboons d = (tally (side dir d Pc.counted) s.pc : Int)
  agrees : ∀ i, (s.pc i).Agrees (s.twoSideBaboons (dir i))
  only40 : v = .baboon39 → ∀ i, (s.pc i).onlyIn40 = false
  rope : ∃ o : Option Direction,
    s.ropeLock = (if o = none then 1 else 0)
      ∧ ∀ d, Held dir s d ↔ o = some d

-- ==================================================== one step, locally

theorem side_pos {d : Direction} {P : Pc → Bool} {j : ι} {p : Pc}
    (h : 0 < side dir d P j p) : dir j = d ∧ P p = true := by
  unfold side at h
  split at h
  case isTrue hp => exact hp
  case isFalse => omega

theorem side_eq_one {P : Pc → Bool} {j : ι} {p : Pc} (h : P p = true) :
    side dir (dir j) P j p = 1 := by
  simp [side, h]

@[simp] theorem setDirectionLock_self (s : State ι) (d : Direction)
    (n : Nat) : (s.setDirectionLock d n).directionLock d = n := by
  simp [State.setDirectionLock]

@[simp] theorem setTwoSideBaboons_self (s : State ι) (d : Direction)
    (n : Int) : (s.setTwoSideBaboons d n).twoSideBaboons d = n := by
  simp [State.setTwoSideBaboons]

section Step

variable [DecidableEq ι] {v : Version} {dir : ι → Direction} {i : ι}
  {s s' : State ι}

@[simp] theorem goto_pc (s : State ι) (i : ι) (p : Pc) :
    (s.goto i p).pc = Function.update s.pc i p := rfl

@[simp] theorem goto_directionLock (s : State ι) (i : ι) (p : Pc) :
    (s.goto i p).directionLock = s.directionLock := rfl

@[simp] theorem goto_twoSideBaboons (s : State ι) (i : ι) (p : Pc) :
    (s.goto i p).twoSideBaboons = s.twoSideBaboons := rfl

@[simp] theorem goto_ropeLock (s : State ι) (i : ι) (p : Pc) :
    (s.goto i p).ropeLock = s.ropeLock := rfl

@[simp] theorem goto_starvation (s : State ι) (i : ι) (p : Pc) :
    (s.goto i p).starvation = s.starvation := rfl

/-- A successful wait took a permit. -/
theorem semWait_eq_some {n m : Nat} (h : semWait n = some m) :
    n = m + 1 := by
  cases n with
  | zero => cases h
  | succ n => simpa [semWait] using h

/-- A wait is blocked exactly at 0. -/
theorem semWait_eq_none {n : Nat} (h : semWait n = none) : n = 0 := by
  cases n with
  | zero => rfl
  | succ n => cases h

/-- Everything one step of process `i` can do: the access it makes to
each shared variable, with the guard it passed. -/
inductive Fires (v : Version) (dir : ι → Direction) (i : ι) (s : State ι) :
    State ι → Prop
  | takeStarvation {n : Nat} (hpc : s.pc i = .waitStarvation)
      (hn : s.starvation = n + 1) :
      Fires v dir i s ({ s with starvation := n }.goto i .waitEnter)
  | giveStarvation (hpc : s.pc i = .postStarvation) :
      Fires v dir i s
        ({ s with starvation := s.starvation + 1 }.goto i .cross)
  | takeDirection {q : Pc} {n : Nat}
      (hpc : s.pc i = .waitEnter ∧ q = .readEnter
        ∨ s.pc i = .waitLeave ∧ q = .readLeave)
      (hn : s.directionLock (dir i) = n + 1) :
      Fires v dir i s ((s.setDirectionLock (dir i) n).goto i q)
  | giveDirection {q : Pc}
      (hpc : s.pc i = .postEnter ∧ q = afterPostEnter v
        ∨ s.pc i = .postLeave ∧ q = .done) :
      Fires v dir i s ((s.setDirectionLock (dir i)
        (s.directionLock (dir i) + 1)).goto i q)
  | takeRope {n : Nat} (hpc : s.pc i = .waitRope) (hn : s.ropeLock = n + 1) :
      Fires v dir i s ({ s with ropeLock := n }.goto i .onRope)
  | giveRope (hpc : s.pc i = .postRope) :
      Fires v dir i s ({ s with ropeLock := s.ropeLock + 1 }.goto i .postLeave)
  | load {q : Pc}
      (hpc : s.pc i = .readEnter ∧ q = .writeEnter (s.twoSideBaboons (dir i))
        ∨ s.pc i = .readLeave ∧ q = .writeLeave (s.twoSideBaboons (dir i))) :
      Fires v dir i s (s.goto i q)
  | increment {n : Int} (hpc : s.pc i = .writeEnter n) :
      Fires v dir i s
        ((s.setTwoSideBaboons (dir i) (n + 1)).goto i .testFirst)
  | decrement {n : Int} (hpc : s.pc i = .writeLeave n) :
      Fires v dir i s
        ((s.setTwoSideBaboons (dir i) (n - 1)).goto i .testLast)
  | isFirst (hpc : s.pc i = .testFirst) (h1 : s.twoSideBaboons (dir i) = 1) :
      Fires v dir i s (s.goto i .waitRope)
  | notFirst (hpc : s.pc i = .testFirst)
      (h1 : s.twoSideBaboons (dir i) ≠ 1) :
      Fires v dir i s (s.goto i .onRope)
  | isLast (hpc : s.pc i = .testLast) (h0 : s.twoSideBaboons (dir i) = 0) :
      Fires v dir i s (s.goto i .postRope)
  | notLast (hpc : s.pc i = .testLast) (h0 : s.twoSideBaboons (dir i) ≠ 0) :
      Fires v dir i s (s.goto i .postLeave)
  | display {q : Pc} {x : Status}
      (hpc : s.pc i = .onRope ∧ q = .postEnter
        ∨ s.pc i = .cross ∧ q = .waitLeave) :
      Fires v dir i s ((s.setStatus i x).goto i q)

/-- The step function does nothing else. -/
theorem fires_of_step (h : flyBaboonsFly v dir i s = some s') :
    Fires v dir i s s' := by
  unfold flyBaboonsFly at h
  split at h
  case h_1 hpc =>
    obtain ⟨n, hn, rfl⟩ := Option.map_eq_some_iff.mp h
    exact .takeStarvation hpc (semWait_eq_some hn)
  case h_2 hpc =>
    obtain ⟨n, hn, rfl⟩ := Option.map_eq_some_iff.mp h
    exact .takeDirection (.inl ⟨hpc, rfl⟩) (semWait_eq_some hn)
  case h_3 hpc => cases h; exact .load (.inl ⟨hpc, rfl⟩)
  case h_4 hpc => cases h; exact .increment hpc
  case h_5 hpc =>
    split at h
    next h1 => cases h; exact .isFirst hpc h1
    next h1 => cases h; exact .notFirst hpc h1
  case h_6 hpc =>
    obtain ⟨n, hn, rfl⟩ := Option.map_eq_some_iff.mp h
    exact .takeRope hpc (semWait_eq_some hn)
  case h_7 hpc => cases h; exact .display (.inl ⟨hpc, rfl⟩)
  case h_8 hpc => cases h; exact .giveDirection (.inl ⟨hpc, rfl⟩)
  case h_9 hpc => cases h; exact .giveStarvation hpc
  case h_10 hpc => cases h; exact .display (.inr ⟨hpc, rfl⟩)
  case h_11 hpc =>
    obtain ⟨n, hn, rfl⟩ := Option.map_eq_some_iff.mp h
    exact .takeDirection (.inr ⟨hpc, rfl⟩) (semWait_eq_some hn)
  case h_12 hpc => cases h; exact .load (.inr ⟨hpc, rfl⟩)
  case h_13 hpc => cases h; exact .decrement hpc
  case h_14 hpc =>
    split at h
    next h0 => cases h; exact .isLast hpc h0
    next h0 => cases h; exact .notLast hpc h0
  case h_15 hpc => cases h; exact .giveRope hpc
  case h_16 hpc => cases h; exact .giveDirection (.inr ⟨hpc, rfl⟩)
  case h_17 => cases h

/-- The stepping process is the only one that moves. -/
theorem Fires.pc_eq (h : Fires v dir i s s') :
    s'.pc = Function.update s.pc i (s'.pc i) := by
  cases h <;> simp [State.setDirectionLock, State.setTwoSideBaboons,
    State.setStatus]

theorem Fires.pc_ne (h : Fires v dir i s s') {j : ι} (hne : j ≠ i) :
    s'.pc j = s.pc j := by
  rw [h.pc_eq, Function.update_of_ne hne]

/-- Only a process inside the section stores to its counter. -/
theorem Fires.counter_eq_or (h : Fires v dir i s s') :
    s'.twoSideBaboons = s.twoSideBaboons
      ∨ (s.pc i).inSection = true := by
  cases h with
  | increment hpc | decrement hpc => exact .inr (by simp [hpc, Pc.inSection])
  | _ => exact .inl rfl

/-- A step keeps to its own direction's lock and counter. -/
theorem Fires.other (h : Fires v dir i s s') {d : Direction}
    (hd : dir i ≠ d) :
    s'.directionLock d = s.directionLock d
      ∧ s'.twoSideBaboons d = s.twoSideBaboons d := by
  cases h <;> simp [State.setDirectionLock, State.setTwoSideBaboons,
    State.setStatus, Function.update_of_ne hd.symm]

-- ============================================= the conservation laws

/-- Direction locks: the permit the lock loses is the one the stepping
process gains. -/
theorem Fires.lock (h : Fires v dir i s s') (d : Direction) :
    s'.directionLock d + side dir d Pc.inSection i (s'.pc i)
      = s.directionLock d + side dir d Pc.inSection i (s.pc i) := by
  by_cases hd : dir i = d
  case neg => simp [side, hd, (h.other hd).1]
  case pos =>
    subst hd
    cases h with
    | takeDirection hpc hn =>
        rcases hpc with ⟨hpc, rfl⟩ | ⟨hpc, rfl⟩ <;>
          simp [side, hpc, hn, Pc.inSection]
    | giveDirection hpc =>
        rcases hpc with ⟨hpc, rfl⟩ | ⟨hpc, rfl⟩
        · cases v <;> simp [side, hpc, Pc.inSection, afterPostEnter]
        · simp [side, hpc, Pc.inSection]
    | load hpc | display hpc =>
        rcases hpc with ⟨hpc, rfl⟩ | ⟨hpc, rfl⟩ <;>
          simp [side, hpc, Pc.inSection, State.setStatus]
    | takeStarvation hpc | giveStarvation hpc | takeRope hpc | giveRope hpc
    | increment hpc | decrement hpc | isFirst hpc | notFirst hpc
    | isLast hpc | notLast hpc =>
        simp [side, hpc, Pc.inSection, State.setTwoSideBaboons]

/-- The starvation semaphore, which only `baboon40.c` has. -/
theorem Fires.starve (h : Fires v dir i s s')
    (h40 : v = .baboon39 → (s.pc i).onlyIn40 = false) :
    s'.starvation + either (Pc.inEntry v) i (s'.pc i)
      = s.starvation + either (Pc.inEntry v) i (s.pc i) := by
  cases v with
  | baboon39 =>
      have h39 := h40 rfl
      cases h with
      | takeStarvation hpc | giveStarvation hpc =>
          simp [hpc, Pc.onlyIn40] at h39
      | _ => simp [either, Pc.inEntry, State.setDirectionLock,
          State.setTwoSideBaboons, State.setStatus]
  | baboon40 =>
      cases h with
      | takeStarvation hpc hn => simp [either, hpc, hn, Pc.inEntry]
      | takeDirection hpc | giveDirection hpc | load hpc | display hpc =>
          rcases hpc with ⟨hpc, rfl⟩ | ⟨hpc, rfl⟩ <;>
            simp [either, hpc, Pc.inEntry, State.setDirectionLock,
              State.setStatus, afterPostEnter]
      | giveStarvation hpc | takeRope hpc | giveRope hpc | increment hpc
      | decrement hpc | isFirst hpc | notFirst hpc | isLast hpc
      | notLast hpc =>
          simp [either, hpc, Pc.inEntry, State.setTwoSideBaboons]

/-- The counters: what the stepping process adds it accounts for. The
store goes through the operand, which the section protects. -/
theorem Fires.counter (h : Fires v dir i s s')
    (hag : (s.pc i).Agrees (s.twoSideBaboons (dir i))) (d : Direction) :
    s'.twoSideBaboons d - side dir d Pc.counted i (s'.pc i)
      = s.twoSideBaboons d - side dir d Pc.counted i (s.pc i) := by
  by_cases hd : dir i = d
  case neg => simp [side, hd, (h.other hd).2]
  case pos =>
    subst hd
    cases h with
    | increment hpc | decrement hpc =>
        rw [hpc] at hag
        simp [side, hpc, show _ = _ from hag, Pc.counted, Pc.onTheRope]
    | giveDirection hpc =>
        rcases hpc with ⟨hpc, rfl⟩ | ⟨hpc, rfl⟩
        · cases v <;> simp [side, hpc, Pc.counted, Pc.onTheRope,
            afterPostEnter, State.setDirectionLock]
        · simp [side, hpc, Pc.counted, Pc.onTheRope,
            State.setDirectionLock]
    | takeDirection hpc | load hpc | display hpc =>
        rcases hpc with ⟨hpc, rfl⟩ | ⟨hpc, rfl⟩ <;>
          simp [side, hpc, Pc.counted, Pc.onTheRope,
            State.setDirectionLock, State.setStatus]
    | takeStarvation hpc | giveStarvation hpc | takeRope hpc | giveRope hpc
    | isFirst hpc | notFirst hpc | isLast hpc | notLast hpc =>
        simp [side, hpc, Pc.counted, Pc.onTheRope]

/-- The stepping process arrives in agreement with its counter. -/
theorem Fires.agrees (h : Fires v dir i s s') :
    (s'.pc i).Agrees (s'.twoSideBaboons (dir i)) := by
  cases h with
  | load hpc =>
      rcases hpc with ⟨hpc, rfl⟩ | ⟨hpc, rfl⟩ <;> simp [Pc.Agrees]
  | giveDirection hpc =>
      rcases hpc with ⟨hpc, rfl⟩ | ⟨hpc, rfl⟩
      · cases v <;> simp [Pc.Agrees, afterPostEnter]
      · simp [Pc.Agrees]
  | takeDirection hpc | display hpc =>
      rcases hpc with ⟨hpc, rfl⟩ | ⟨hpc, rfl⟩ <;> simp [Pc.Agrees]
  | isFirst hpc h1 => simpa [Pc.Agrees] using h1
  | isLast hpc h0 => simpa [Pc.Agrees] using h0
  | _ => simp [Pc.Agrees]

/-- `baboon39.c` never enters a step only `baboon40.c` has. -/
theorem Fires.only40 (h : Fires .baboon39 dir i s s') :
    (s'.pc i).onlyIn40 = false := by
  cases h with
  | takeDirection hpc | giveDirection hpc | load hpc | display hpc =>
      rcases hpc with ⟨hpc, rfl⟩ | ⟨hpc, rfl⟩ <;>
        simp [Pc.onlyIn40, afterPostEnter]
  | _ => simp [Pc.onlyIn40]

end Step

-- ====================================================== the sweep

section Sweep

variable [Fintype ι] [DecidableEq ι] {v : Version} {dir : ι → Direction}
  {i : ι} {s s' : State ι}

/-- At most one process of a direction is inside a section. -/
theorem Inv.alone (hI : Inv v dir s) {j : ι}
    (hi : (s.pc i).inSection = true) (hj : (s.pc j).inSection = true)
    (hd : dir j = dir i) : j = i := by
  by_contra hne
  have hpair := weight_add_le_tally (side dir (dir i) Pc.inSection) s.pc hne
  rw [side_eq_one hi, ← hd, side_eq_one hj, hd] at hpair
  have := hI.lock (dir i)
  omega

omit [DecidableEq ι] in
/-- A counted process is in its counter. -/
theorem Inv.counter_pos (hI : Inv v dir s) (hi : (s.pc i).counted = true) :
    0 < s.twoSideBaboons (dir i) := by
  have hw := weight_le_tally (side dir (dir i) Pc.counted) s.pc i
  rw [side_eq_one hi] at hw
  rw [hI.counter]
  omega

omit [DecidableEq ι] in
/-- A process about to take the rope is its direction's only one. -/
theorem Inv.first (hI : Inv v dir s) (hi : s.pc i = .waitRope) :
    s.twoSideBaboons (dir i) = 1 := by
  have := hI.agrees i
  rwa [hi] at this

omit [DecidableEq ι] in
/-- A process about to give the rope back has left nobody behind. -/
theorem Inv.last (hI : Inv v dir s) (hi : s.pc i = .postRope) :
    s.twoSideBaboons (dir i) = 0 := by
  have := hI.agrees i
  rwa [hi] at this

/-- A process in the section, and a counter that holds more than that
process: someone else of its direction is on the rope. -/
theorem Inv.another (hI : Inv v dir s) (hi : (s.pc i).inSection = true)
    (hmore : (side dir (dir i) Pc.counted i (s.pc i) : Int)
      < s.twoSideBaboons (dir i)) :
    ∃ j, j ≠ i ∧ dir j = dir i ∧ OnTheRope s j := by
  rw [hI.counter] at hmore
  obtain ⟨j, hne, hj⟩ := exists_other_of_tally (Int.ofNat_lt.mp hmore)
  obtain ⟨hd, hc⟩ := side_pos hj
  refine ⟨j, hne, hd, ?_⟩
  have hout : (s.pc j).inSection ≠ true := fun h => hne (hI.alone hi h hd)
  unfold OnTheRope
  cases hp : s.pc j <;> simp_all [Pc.counted, Pc.inSection, Pc.onTheRope]

/-- While a process is inside a section no other process moves its
counter. -/
theorem Inv.counter_stable (hI : Inv v dir s) (hf : Fires v dir i s s')
    {j : ι} (hne : j ≠ i) (hj : (s.pc j).inSection = true) :
    s'.twoSideBaboons (dir j) = s.twoSideBaboons (dir j) := by
  rcases hf.counter_eq_or with heq | hi
  · rw [heq]
  · by_cases hd : dir i = dir j
    · exact absurd (hI.alone hi hj hd.symm) hne
    · exact (hf.other hd).2

/-- Nobody else's hold on the rope changes in a step. -/
theorem Inv.keeps_other (hI : Inv v dir s) (hf : Fires v dir i s s') {j : ι}
    (hne : j ≠ i) : KeepsRope dir s' j ↔ KeepsRope dir s j := by
  unfold KeepsRope OnTheRope
  rw [hf.pc_ne hne]
  by_cases hlast : s.pc j = .testLast
  · rw [hI.counter_stable hf hne (by simp [hlast, Pc.inSection])]
  · simp [hlast]

/-- A step that leaves the stepping process's own hold alone leaves both
directions' hold alone. -/
theorem Inv.held_of_keeps (hI : Inv v dir s) (hf : Fires v dir i s s')
    (hk : KeepsRope dir s' i ↔ KeepsRope dir s i) (d : Direction) :
    Held dir s' d ↔ Held dir s d := by
  refine exists_congr fun j => and_congr_right fun _ => ?_
  by_cases hne : j = i
  · rw [hne, hk]
  · exact hI.keeps_other hf hne

/-- A step of process `i` leaves the other direction's hold alone. -/
theorem Inv.held_other (hI : Inv v dir s) (hf : Fires v dir i s s')
    {d : Direction} (hd : dir i ≠ d) : Held dir s' d ↔ Held dir s d := by
  refine exists_congr fun j => and_congr_right fun hj => ?_
  exact hI.keeps_other hf fun he => hd (he ▸ hj)

/-- While another baboon of the direction stays on the rope, so does the
direction. -/
theorem Inv.held_of_another (hI : Inv v dir s) (hf : Fires v dir i s s')
    {j : ι} (hne : j ≠ i) (hd : dir j = dir i) (hj : OnTheRope s j)
    (d : Direction) : Held dir s' d ↔ Held dir s d := by
  by_cases hdi : dir i = d
  · subst hdi
    exact iff_of_true ⟨j, hd, (hI.keeps_other hf hne).mpr (.inl hj)⟩
      ⟨j, hd, .inl hj⟩
  · exact hI.held_other hf hdi

/-- A process in the section, and a counter that holds that process
alone: nobody else speaks for the direction. -/
theorem Inv.nobody_else (hI : Inv v dir s) (hi : (s.pc i).inSection = true)
    (heq : s.twoSideBaboons (dir i)
      = side dir (dir i) Pc.counted i (s.pc i))
    {j : ι} (hne : j ≠ i) (hd : dir j = dir i) : ¬KeepsRope dir s j := by
  intro hj
  have hout : (s.pc j).inSection ≠ true := fun h => hne (hI.alone hi h hd)
  have hc : (s.pc j).counted = true := by
    rcases hj with hj | hj | ⟨hj, -⟩
    · unfold OnTheRope at hj
      cases hp : s.pc j <;> simp_all [Pc.counted, Pc.onTheRope]
    · simp [hj, Pc.inSection] at hout
    · simp [hj, Pc.inSection] at hout
  have hpair := weight_add_le_tally (side dir (dir i) Pc.counted) s.pc hne
  rw [← hd, side_eq_one hc, hd] at hpair
  have := hI.counter (dir i)
  omega

/-- The rope changes hands only at the two accesses to `ropeLock`: the
first baboon of a direction takes it for a direction that did not hold
it, the last one gives it back for a direction that then no longer
does. -/
theorem Inv.rope_step (hI : Inv v dir s) (hf : Fires v dir i s s') :
    (s'.ropeLock = s.ropeLock ∧ ∀ d, Held dir s' d ↔ Held dir s d)
    ∨ (s.ropeLock = s'.ropeLock + 1 ∧ ¬Held dir s (dir i)
        ∧ Held dir s' (dir i))
    ∨ (s'.ropeLock = s.ropeLock + 1 ∧ Held dir s (dir i)
        ∧ ¬Held dir s' (dir i)) := by
  have hsame := hI.held_of_keeps hf
  have hother := fun j hne => hI.keeps_other hf (j := j) hne
  have hstay := fun j hne => hI.held_of_another hf (j := j) hne
  cases hf with
  | takeRope hpc hn =>
      refine .inr (.inl ⟨by simpa using hn, ?_, i, rfl, .inl ?_⟩)
      · rintro ⟨j, hd, hj⟩
        by_cases hne : j = i
        · subst hne
          simp [KeepsRope, OnTheRope, hpc, Pc.onTheRope] at hj
        · exact hI.nobody_else (by simp [hpc, Pc.inSection])
            (by simp [hI.first hpc, side, hpc, Pc.counted]) hne hd hj
      · simp [OnTheRope, Pc.onTheRope]
  | giveRope hpc =>
      refine .inr (.inr ⟨by simp, ⟨i, rfl, .inr (.inl hpc)⟩, ?_⟩)
      rintro ⟨j, hd, hj⟩
      by_cases hne : j = i
      · subst hne
        simp [KeepsRope, OnTheRope, Pc.onTheRope] at hj
      · exact hI.nobody_else (by simp [hpc, Pc.inSection])
          (by simp [hI.last hpc, side, hpc, Pc.counted, Pc.onTheRope])
          hne hd ((hother j hne).mp hj)
  | notFirst hpc h1 =>
      -- not the first: the counter vouches for one already on the rope
      have hpos := hI.counter_pos (i := i) (by simp [hpc, Pc.counted])
      obtain ⟨j, hne, hd, hj⟩ := hI.another (i := i)
        (by simp [hpc, Pc.inSection])
        (by simp [side, hpc, Pc.counted]; omega)
      exact .inl ⟨rfl, hstay j hne hd hj⟩
  | decrement hpc =>
      rename_i n
      have hn : n = s.twoSideBaboons (dir i) := by
        have := hI.agrees i
        rwa [hpc] at this
      by_cases hz : n = 1
      · -- the last one: it still speaks for the direction until it posts
        refine .inl ⟨rfl, hsame (iff_of_true ?_ (.inl ?_))⟩
        · simp [KeepsRope, hz]
        · simp [OnTheRope, hpc, Pc.onTheRope]
      · have hpos := hI.counter_pos (i := i)
          (by simp [hpc, Pc.counted, Pc.onTheRope])
        obtain ⟨j, hne, hd, hj⟩ := hI.another (i := i)
          (by simp [hpc, Pc.inSection])
          (by simp [side, hpc, Pc.counted, Pc.onTheRope]; omega)
        exact .inl ⟨rfl, hstay j hne hd hj⟩
  | isLast hpc h0 =>
      exact .inl ⟨rfl, hsame (by simp [KeepsRope, hpc, h0])⟩
  | notLast hpc h0 =>
      refine .inl ⟨rfl, hsame (iff_of_false ?_ ?_)⟩ <;>
        simp [KeepsRope, OnTheRope, hpc, h0, Pc.onTheRope]
  | giveDirection hpc =>
      refine .inl ⟨rfl, hsame ?_⟩
      rcases hpc with ⟨hpc, rfl⟩ | ⟨hpc, rfl⟩
      · cases v <;>
          simp [KeepsRope, OnTheRope, hpc, Pc.onTheRope, afterPostEnter]
      · simp [KeepsRope, OnTheRope, hpc, Pc.onTheRope]
  | takeDirection hpc | load hpc | display hpc =>
      refine .inl ⟨rfl, hsame ?_⟩
      rcases hpc with ⟨hpc, rfl⟩ | ⟨hpc, rfl⟩ <;>
        simp [KeepsRope, OnTheRope, hpc, Pc.onTheRope]
  | takeStarvation hpc | giveStarvation hpc | increment hpc | isFirst hpc =>
      refine .inl ⟨rfl, hsame ?_⟩
      simp [KeepsRope, OnTheRope, hpc, Pc.onTheRope]

/-- Outside its section a process says nothing about its counter. -/
theorem agrees_of_not_inSection {p : Pc} (h : p.inSection ≠ true) (c : Int) :
    p.Agrees c := by
  cases p <;> simp_all [Pc.inSection, Pc.Agrees]

/-- One step preserves the invariant. -/
theorem Inv.step (hI : Inv v dir s) (hf : Fires v dir i s s') :
    Inv v dir s' := by
  constructor
  case lock =>
    intro d
    have hsum := tally_update (side dir d Pc.inSection) s.pc i (s'.pc i)
    rw [← hf.pc_eq] at hsum
    have := hf.lock d
    have := hI.lock d
    omega
  case starve =>
    have hsum := tally_update (either (Pc.inEntry v)) s.pc i (s'.pc i)
    rw [← hf.pc_eq] at hsum
    have := hf.starve fun h39 => hI.only40 h39 i
    have := hI.starve
    omega
  case counter =>
    intro d
    have hsum := tally_update (side dir d Pc.counted) s.pc i (s'.pc i)
    rw [← hf.pc_eq] at hsum
    have := hf.counter (hI.agrees i) d
    have := hI.counter d
    omega
  case agrees =>
    intro j
    by_cases hne : j = i
    · rw [hne]
      exact hf.agrees
    · rw [hf.pc_ne hne]
      by_cases hj : (s.pc j).inSection = true
      · rw [hI.counter_stable hf hne hj]
        exact hI.agrees j
      · exact agrees_of_not_inSection hj _
  case only40 =>
    rintro rfl j
    by_cases hne : j = i
    · rw [hne]
      exact hf.only40
    · rw [hf.pc_ne hne]
      exact hI.only40 rfl j
  case rope =>
    obtain ⟨o, hfree, howner⟩ := hI.rope
    rcases hI.rope_step hf with ⟨hrl, hh⟩ | ⟨hrl, hno, hyes⟩ | ⟨hrl, hyes, hno⟩
    · exact ⟨o, by rw [hrl, hfree], fun d => (hh d).trans (howner d)⟩
    · -- the lock had a permit, so nobody owned it
      have ho : o = none := by
        by_contra hne
        rw [if_neg hne] at hfree
        omega
      subst ho
      refine ⟨some (dir i), by simp at hfree ⊢; omega, fun d => ?_⟩
      by_cases hd : dir i = d
      · exact hd ▸ iff_of_true hyes rfl
      · rw [hI.held_other hf hd, howner d]
        simp [hd]
    · have ho : o = some (dir i) := (howner _).mp hyes
      subst ho
      refine ⟨none, by simp at hfree ⊢; omega, fun d => ?_⟩
      by_cases hd : dir i = d
      · exact hd ▸ iff_of_false hno (by simp)
      · rw [hI.held_other hf hd, howner d]
        simp [hd]

omit [DecidableEq ι] in
/-- Before anybody moved: every semaphore at 1, both counters at 0. -/
theorem inv_initial (v : Version) (dir : ι → Direction) :
    Inv v dir (initial v) := by
  have hzero : ∀ d (P : Pc → Bool), P (entry v) = false →
      tally (side dir d P) (initial (ι := ι) v).pc = 0 := fun d P hP =>
    tally_eq_zero fun i => by simp [side, initial, hP]
  constructor
  case lock =>
    intro d
    rw [hzero d _ (by cases v <;> rfl)]
    rfl
  case starve =>
    rw [show tally (either (Pc.inEntry v)) (initial (ι := ι) v).pc = 0 from
      tally_eq_zero fun i => by cases v <;> rfl]
    rfl
  case counter =>
    intro d
    rw [hzero d _ (by cases v <;> rfl)]
    rfl
  case agrees => intro i; cases v <;> trivial
  case only40 => rintro rfl i; rfl
  case rope =>
    refine ⟨none, rfl, fun d => iff_of_false ?_ (by simp)⟩
    rintro ⟨i, -, hi⟩
    cases v <;> simp [KeepsRope, OnTheRope, initial, entry, Pc.onTheRope] at hi

/-- The invariant holds in every reachable state. -/
theorem inv_reachable (h : Reachable v dir s) : Inv v dir s :=
  Lib.Reach.invariant h (fun _ ht => ht ▸ inv_initial v dir)
    fun _ _ _ hI _ hst => hI.step (fires_of_step hst)

end Sweep

end OperatingSystem.Baboon
