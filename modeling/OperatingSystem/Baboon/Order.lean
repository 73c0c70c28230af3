/-
Who gets on the rope in `baboon40.c`, and in which order.

# The history

`Watched` adds to the state what no step reads: who has acquired
`starvation`, and whose `status` has become ONROPE, each in order of time.

# The argument

A baboon lets go of `starvation` only behind `aBaboon->status = ONROPE`. So
whoever sets it holds the semaphore, and is the only one who does: the two
histories are the same list but for the one baboon that has acquired the
semaphore and is not on the rope yet. While there is such a baboon nobody
else sets ONROPE.
-/
import OperatingSystem.Baboon.Inv

namespace OperatingSystem.Baboon

open Lib (Anything Reach Steps weight_add_le_tally weight_le_tally)

-- ============================================================ the history

/-- The protocol of `baboon40.c` with its two histories. -/
structure Watched (ι : Type*) where
  state : State ι
  acquired : List ι
  boarded : List ι

section System

variable {ι : Type*} [DecidableEq ι]

/-- Process `i` acquires `starvation` if this is its `sem_wait` on it, and
boards if its status becomes ONROPE. -/
def watched (dir : ι → Direction) : Lib.System (Watched ι) ι where
  start := fun w => w = ⟨initial .baboon40, [], []⟩
  step := fun i w => (flyBaboonsFly .baboon40 dir i w.state).map fun s =>
    { state := s
      acquired := if w.state.pc i = .waitStarvation then w.acquired ++ [i]
        else w.acquired
      boarded := if w.state.status i ≠ .onrope ∧ s.status i = .onrope then
        w.boarded ++ [i] else w.boarded }

end System

/-- Between `sem_wait(starvation)` and `sem_post(starvation)`. -/
def HoldsStarvation {ι : Type*} (s : State ι) (i : ι) : Prop :=
  (s.pc i).inEntry .baboon40 = true

/-- The baboons of direction `d` with status ONROPE. -/
def onRopeOf {ι : Type*} [Fintype ι] (dir : ι → Direction) (s : State ι)
    (d : Direction) : Finset ι :=
  Finset.univ.filter fun j => dir j = d ∧ s.status j = .onrope

-- ============================================================= the status

/-- The status a baboon has at a point of the program. -/
def Pc.status : Pc → Status
  | .waitStarvation | .waitEnter | .readEnter | .writeEnter _ | .testFirst
  | .waitRope | .onRope => .arrival
  | .postEnter | .postStarvation | .cross => .onrope
  | _ => .crossed

/-- What a step of `baboon40.c` is for the order: it acquires the semaphore,
it boards, or it is neither and no baboon gets ready to board. -/
inductive Kind (p q : Pc) : Prop
  | acquires (hp : p = .waitStarvation) (hq : q = .waitEnter)
  | boards (hp : p = .onRope) (hq : q = .postEnter)
  | neither (hp : p ≠ .waitStarvation) (hq : q ≠ .waitStarvation)
      (hholds : q.inEntry .baboon40 = true → p.inEntry .baboon40 = true)
      (harrival : q.status = .arrival ↔ p.status = .arrival)
      (honrope : q.status = .onrope → p.status = .onrope)

variable {ι : Type*} [DecidableEq ι] {dir : ι → Direction} {i j : ι}
  {s s' : State ι} {w w' : Watched ι}

theorem kind_of_step (h : flyBaboonsFly .baboon40 dir i s = some s') :
    Kind (s.pc i) (s'.pc i) := by
  cases fires_of_step h with
  | takeStarvation hpc => exact .acquires hpc (by simp)
  | display hpc =>
      rcases hpc with ⟨hpc, rfl⟩ | ⟨hpc, rfl⟩
      · exact .boards hpc (by simp [State.setStatus])
      · rw [hpc]
        exact .neither (by simp) (by simp) (by simp [Pc.inEntry])
          (by simp [Pc.status]) (by simp [Pc.status])
  | takeDirection hpc | giveDirection hpc | load hpc =>
      rcases hpc with ⟨hpc, rfl⟩ | ⟨hpc, rfl⟩
      all_goals
        rw [hpc]
        exact .neither (by simp) (by simp [afterPostEnter])
          (by simp [Pc.inEntry])
          (by simp [Pc.status, afterPostEnter])
          (by simp [Pc.status, afterPostEnter])
  | giveStarvation hpc | takeRope hpc | giveRope hpc | increment hpc
  | decrement hpc | isFirst hpc | notFirst hpc | isLast hpc | notLast hpc =>
      rw [hpc]
      exact .neither (by simp) (by simp) (by simp [Pc.inEntry])
        (by simp [Pc.status]) (by simp [Pc.status])

/-- A step leaves the stepping baboon with the status of its new point of
the program, and touches no other status. -/
theorem status_step (h : flyBaboonsFly .baboon40 dir i s = some s')
    (hst : s.status i = (s.pc i).status) :
    s'.status = Function.update s.status i (s'.pc i).status := by
  unfold flyBaboonsFly at h
  split at h
  case h_7 | h_10 =>
    cases h
    simp [State.setStatus, Pc.status, State.goto]
  case h_5 hpc | h_14 hpc =>
    rw [hpc] at hst
    split at h
    all_goals
      cases h
      simpa [State.goto, Pc.status] using hst
  case h_17 => cases h
  case h_1 hpc | h_2 hpc | h_6 hpc | h_11 hpc =>
    rw [hpc] at hst
    obtain ⟨n, -, rfl⟩ := Option.map_eq_some_iff.mp h
    simpa [State.goto, State.setDirectionLock, Pc.status] using hst
  case h_3 hpc | h_4 hpc | h_8 hpc | h_9 hpc | h_12 hpc | h_13 hpc
  | h_15 hpc | h_16 hpc =>
    rw [hpc] at hst
    cases h
    simpa [State.goto, State.setDirectionLock, State.setTwoSideBaboons,
      afterPostEnter, Pc.status] using hst

/-- Every baboon's status goes with its point of the program. -/
theorem statuses_step (h : flyBaboonsFly .baboon40 dir i s = some s')
    (hst : ∀ j, s.status j = (s.pc j).status) (j : ι) :
    s'.status j = (s'.pc j).status := by
  rw [status_step h (hst i)]
  by_cases hne : j = i
  · rw [hne, Function.update_self]
  · rw [Function.update_of_ne hne, (fires_of_step h).pc_ne hne, hst]

/-- A baboon that has not boarded waits for the semaphore or holds it. -/
theorem holds_of_arrival {p : Pc} (h : p.status = .arrival)
    (hp : p ≠ .waitStarvation) : p.inEntry .baboon40 = true := by
  cases p with
  | waitStarvation => exact absurd rfl hp
  | _ => simp_all [Pc.status, Pc.inEntry]

/-- Whoever holds the semaphore left nobody else a permit. -/
theorem Inv.holder_unique [Fintype ι] (hI : Inv .baboon40 dir s)
    (hi : HoldsStarvation s i) (hj : HoldsStarvation s j) : i = j := by
  by_contra hne
  have hpair := weight_add_le_tally (either (Pc.inEntry .baboon40)) s.pc hne
  have hsum := hI.starve
  have hwi : either (Pc.inEntry .baboon40) i (s.pc i) = 1 := if_pos hi
  have hwj : either (Pc.inEntry .baboon40) j (s.pc j) = 1 := if_pos hj
  omega

omit [DecidableEq ι] in
theorem Inv.starvation_zero [Fintype ι] (hI : Inv .baboon40 dir s)
    (hi : HoldsStarvation s i) : s.starvation = 0 := by
  have hw := weight_le_tally (either (Pc.inEntry .baboon40)) s.pc i
  have hsum := hI.starve
  have hwi : either (Pc.inEntry .baboon40) i (s.pc i) = 1 := if_pos hi
  omega

-- ========================================================== the invariant

/-- The invariant of the histories: `pending` is the baboon that has
acquired the semaphore and is not on the rope yet. -/
structure Ordered [Fintype ι] (dir : ι → Direction) (w : Watched ι) :
    Prop where
  inv : Inv .baboon40 dir w.state
  status : ∀ j, w.state.status j = (w.state.pc j).status
  acquired : ∀ j, j ∈ w.acquired ↔ w.state.pc j ≠ .waitStarvation
  once : w.acquired.Nodup
  order : ∃ pending : Option ι, w.acquired = w.boarded ++ pending.toList
    ∧ ∀ j, j ∈ pending
      ↔ HoldsStarvation w.state j ∧ w.state.status j = .arrival

section Run

variable [Fintype ι]

omit [DecidableEq ι] in
theorem ordered_initial : Ordered dir ⟨initial .baboon40, [], []⟩ where
  inv := inv_initial .baboon40 dir
  status := fun _ => rfl
  acquired := fun _ => by simp [initial, entry]
  once := List.nodup_nil
  order := ⟨none, rfl, fun j => by
    simp [HoldsStarvation, initial, entry, Pc.inEntry]⟩

omit [Fintype ι] in
/-- What the order asks of the baboons that do not move. -/
theorem pending_other (hf : Fires .baboon40 dir i s s')
    (hst : s'.status = Function.update s.status i (s'.pc i).status)
    (hne : j ≠ i) :
    HoldsStarvation s' j ∧ s'.status j = .arrival
      ↔ HoldsStarvation s j ∧ s.status j = .arrival := by
  rw [HoldsStarvation, HoldsStarvation, hf.pc_ne hne, hst,
    Function.update_of_ne hne]

/-- One step keeps the order. -/
theorem Ordered.step (hO : Ordered dir w)
    (h : (watched dir).step i w = some w') : Ordered dir w' := by
  obtain ⟨s', hs', rfl⟩ := Option.map_eq_some_iff.mp h
  have hf := fires_of_step hs'
  have hst := status_step hs' (hO.status i)
  have hpi := hO.status i
  have hstatus := statuses_step hs' hO.status
  have hpi' := hstatus i
  have hother := fun j hne => pending_other (j := j) hf hst hne
  obtain ⟨pending, hord, hpend⟩ := hO.order
  cases kind_of_step hs' with
  | acquires hp hq =>
      -- the permit it took was free, so nobody was pending
      have hfree : ∀ j, ¬HoldsStarvation w.state j := by
        intro j hj
        have hz := hO.inv.starvation_zero hj
        unfold flyBaboonsFly at hs'
        rw [hp, hz] at hs'
        cases hs'
      have hnone : pending = none :=
        Option.eq_none_iff_forall_not_mem.mpr
          fun j hj => hfree j ((hpend j).mp hj).1
      have hni : i ∉ w.acquired := fun hmem => (hO.acquired i).mp hmem hp
      subst hnone
      refine ⟨hO.inv.step hf, hstatus, ?_, ?_, some i, ?_, ?_⟩
      · intro j
        by_cases hne : j = i
        · simp [hne, hp, hq]
        · simp [hp, hne, hf.pc_ne hne, hO.acquired]
      · show (if _ then _ else _ : List ι).Nodup
        rw [if_pos hp]
        exact hO.once.append (List.nodup_singleton i) (by simpa using hni)
      · simp [hp, hpi', hq, hord, Pc.status]
      · intro j
        by_cases hne : j = i
        · simp [hne, HoldsStarvation, hpi', hq, Pc.status, Pc.inEntry]
        · rw [hother j hne]
          simp [Ne.symm hne, hfree j]
  | boards hp hq =>
      -- who boards holds the semaphore, so it is the one that was pending
      have hholds : HoldsStarvation w.state i := by
        simp [HoldsStarvation, hp, Pc.inEntry]
      have hmem : i ∈ pending :=
        (hpend i).mpr ⟨hholds, by rw [hpi, hp, Pc.status]⟩
      obtain rfl := Option.mem_def.mp hmem
      refine ⟨hO.inv.step hf, hstatus, ?_, ?_, none, ?_, ?_⟩
      · intro j
        by_cases hne : j = i
        · simp [hne, hp, hq, hO.acquired]
        · simp [hp, hf.pc_ne hne, hO.acquired]
      · simpa [hp] using hO.once
      · simp [hp, hpi, hpi', hq, hord, Pc.status]
      · intro j
        by_cases hne : j = i
        · simp [hne, hpi', hq, Pc.status]
        · rw [hother j hne]
          simp only [Option.not_mem_none, false_iff, not_and]
          exact fun hj _ => hne (hO.inv.holder_unique hj hholds)
  | neither hp hq hholds harrival honrope =>
      have hstay : ¬(w.state.status i ≠ .onrope ∧ s'.status i = .onrope) := by
        rw [hpi, hpi']
        exact fun hb => hb.1 (honrope hb.2)
      refine ⟨hO.inv.step hf, hstatus, ?_, ?_, pending, ?_, ?_⟩
      · intro j
        by_cases hne : j = i
        · simp [hne, hp, hq, hO.acquired]
        · simp [hp, hf.pc_ne hne, hO.acquired]
      · simpa [hp] using hO.once
      · show (if _ then _ else _ : List ι) = (if _ then _ else _) ++ _
        rw [if_neg hp, if_neg hstay, hord]
      · intro j
        by_cases hne : j = i
        · rw [hne, hpend i, hpi]
          show _ ↔ HoldsStarvation s' i ∧ s'.status i = .arrival
          rw [hpi', harrival]
          refine and_congr_left fun ha => iff_of_true ?_ ?_
          · exact holds_of_arrival ha hp
          · exact holds_of_arrival (harrival.mpr ha) hq
        · rw [hother j hne]
          exact hpend j

theorem ordered_reachable (h : Reach (watched dir) Anything w) :
    Ordered dir w :=
  h.invariant (fun _ ht => ht ▸ ordered_initial) fun _ _ _ hO _ hst =>
    hO.step hst

-- ================================================= while a baboon waits

/-- What holds from when baboon `i` has the semaphore in state `s` until it
is on the rope. -/
structure Waiting (dir : ι → Direction) (s : State ι) (i : ι) (t : State ι) :
    Prop where
  inv : Inv .baboon40 dir t
  status : ∀ j, t.status j = (t.pc j).status
  holds : t.status i = .arrival → HoldsStarvation t i
  nobody : t.status i = .arrival → ∀ d, onRopeOf dir t d ⊆ onRopeOf dir s d

omit [Fintype ι] in
/-- No step takes a baboon back to ARRIVAL. -/
theorem arrival_before (h : flyBaboonsFly .baboon40 dir j s = some s')
    (hst : ∀ k, s.status k = (s.pc k).status) (hi : s'.status i = .arrival) :
    s.status i = .arrival := by
  rw [statuses_step h hst] at hi
  rw [hst]
  by_cases hne : i = j
  case neg => rwa [(fires_of_step h).pc_ne hne] at hi
  case pos =>
    subst hne
    cases kind_of_step h with
    | acquires hp hq => rw [hp, Pc.status]
    | boards hp hq => rw [hp, Pc.status]
    | neither hp hq hholds harrival honrope => exact harrival.mp hi

/-- A step of any baboon while `i` waits. -/
theorem Waiting.step {t t' : State ι} (hW : Waiting dir s i t)
    (h : flyBaboonsFly .baboon40 dir j t = some t') :
    Waiting dir s i t' := by
  have hf := fires_of_step h
  have hstatus := statuses_step h hW.status
  have hbefore := arrival_before (i := i) h hW.status
  refine ⟨hW.inv.step hf, hstatus, ?_, ?_⟩
  · intro hi
    have hheld := hW.holds (hbefore hi)
    by_cases hne : i = j
    case neg => rwa [HoldsStarvation, hf.pc_ne hne]
    case pos =>
      subst hne
      rw [hstatus] at hi
      cases kind_of_step h with
      | acquires hp hq => simp [HoldsStarvation, hp, Pc.inEntry] at hheld
      | boards hp hq => simp [hq, Pc.status] at hi
      | neither hp hq hholds harrival honrope =>
          exact holds_of_arrival hi hq
  · intro hi d
    apply Finset.Subset.trans _ (hW.nobody (hbefore hi) d)
    intro k hk
    simp only [onRopeOf, Finset.mem_filter, Finset.mem_univ, true_and] at hk ⊢
    refine ⟨hk.1, ?_⟩
    have hon := hk.2
    rw [hstatus] at hon
    rw [hW.status]
    by_cases hne : k = j
    case neg => rwa [hf.pc_ne hne] at hon
    case pos =>
      subst hne
      cases kind_of_step h with
      | acquires hp hq => simp [hq, Pc.status] at hon
      | boards hp hq =>
          -- it would hold the semaphore beside `i`
          have hheld := hW.holds (hbefore hi)
          have hk : HoldsStarvation t k := by
            simp [HoldsStarvation, hp, Pc.inEntry]
          obtain rfl := hW.inv.holder_unique hheld hk
          rw [hstatus, hq] at hi
          cases hi
      | neither hp hq hholds harrival honrope => exact honrope hon

/-- While a baboon that holds the semaphore is not on the rope, nobody gets
on it. -/
theorem waiting_steps {t : State ι} (hI : Inv .baboon40 dir s)
    (hst : ∀ j, s.status j = (s.pc j).status) (hi : HoldsStarvation s i)
    (hrun : Steps (system .baboon40 dir) Anything s t) :
    Waiting dir s i t :=
  hrun.invariant (I := Waiting dir s i) (fun _ _ _ hW _ h => hW.step h)
    ⟨hI, hst, fun _ => hi, fun _ _ => Finset.Subset.refl _⟩

omit [Fintype ι] in
theorem statuses_reachable (h : Reachable .baboon40 dir s) :
    ∀ j, s.status j = (s.pc j).status :=
  Lib.Reach.invariant h (fun _ ht => ht ▸ fun _ => rfl)
    fun _ _ _ hst _ h => statuses_step h hst

-- =============================================================== the order

/-- Baboons board in the order in which they acquire `starvation`: the two
histories agree but for the one that has acquired it and is not on the rope
yet, no baboon comes twice, and until that one boards the number of baboons
on the rope does not grow on either side. -/
theorem boards_in_order :
    (∀ w : Watched ι, Reach (watched dir) Anything w →
      w.acquired.Nodup
      ∧ ∃ pending : Option ι, w.acquired = w.boarded ++ pending.toList
        ∧ ∀ j, j ∈ pending
          ↔ HoldsStarvation w.state j ∧ w.state.status j = .arrival)
    ∧ ∀ (s t : State ι) (i : ι), Reachable .baboon40 dir s →
        HoldsStarvation s i →
        Steps (system .baboon40 dir) Anything s t →
        t.status i = .arrival →
        ∀ d, (onRopeOf dir t d).card ≤ (onRopeOf dir s d).card := by
  constructor
  · intro w hw
    have hO := ordered_reachable hw
    exact ⟨hO.once, hO.order⟩
  · intro s t i hs hi hrun hstill d
    have hW := waiting_steps (inv_reachable hs) (statuses_reachable hs) hi hrun
    apply Finset.card_le_card
    exact hW.nobody hstill d

/-- The eastbound of two baboons boards and lets go of the semaphore, and the
westbound acquires it: the westbound is the pending one, and while it waits
for the rope the other one leaves it. -/
theorem boards_in_order_of_two :
    (∃ w : Watched (Fin 2),
      Lib.run (watched ![.east, .west]) [0, 0, 0, 0, 0, 0, 0, 0, 0, 1]
          ⟨initial .baboon40, [], []⟩ = some w
        ∧ w.acquired = [0, 1] ∧ w.boarded = [0] ∧ w.acquired.Nodup)
    ∧ ∃ s t : State (Fin 2),
        Lib.run (system .baboon40 ![.east, .west])
            [0, 0, 0, 0, 0, 0, 0, 0, 0, 1] (initial .baboon40) = some s
          ∧ Lib.run (system .baboon40 ![.east, .west]) [1, 0, 1, 1, 1] s
            = some t
          ∧ HoldsStarvation s 1 ∧ t.status 1 = .arrival
          ∧ (onRopeOf ![.east, .west] t .east).card
            ≤ (onRopeOf ![.east, .west] s .east).card := by
  have horder := @boards_in_order (Fin 2) _ ![.east, .west] _
  refine ⟨⟨_, rfl, rfl, rfl, (horder.1 _ ?_).1⟩, _, _, rfl, rfl, rfl, rfl, ?_⟩
  · exact Lib.reach_of_run [0, 0, 0, 0, 0, 0, 0, 0, 0, 1] rfl rfl
  · refine horder.2 _ _ 1 ?_ ?_ ?_ rfl .east
    · exact Lib.reach_of_run [0, 0, 0, 0, 0, 0, 0, 0, 0, 1] rfl rfl
    · rfl
    · exact Lib.run_steps [1, 0, 1, 1, 1] (Lib.along_anything _ _) rfl

end Run

end OperatingSystem.Baboon
