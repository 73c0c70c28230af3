/-
When `MAX_ROW_SUM` ends as the largest row sum.

# The invariant

`MAX_ROW_SUM` only grows, so what a thread read is never more than what is
there now, and after its update its own row is covered. Hence the final value
is never too small, whatever the order. It is too large exactly if one update
overshoots: a thread whose row sum exceeds what it read adds the difference
to a value that may have grown since (`Fresh` bounds by how much).
-/
import Mathlib.Data.Finset.Max
import Mathlib.Algebra.Order.BigOperators.Group.List
import OperatingSystem.Matrix.Basic

namespace OperatingSystem.Matrix

variable {n : Nat} {C : Fin n → List Int} {s s' : State n} {a : Action n}
  {i : Fin n} {sum : Int}

/-- No entry of `C` is negative, and its row sums are `int`s. -/
structure Valid (C : Fin n → List Int) : Prop where
  entries : ∀ i, ∀ x ∈ C i, 0 ≤ x
  sums : ∀ i, (C i).sum ≤ INT_MAX

/-- When a thread whose row sum exceeds what it read updates,
`MAX_ROW_SUM` has grown since by no more than the row falls short of the
largest one. `sum + (C i).sum` is what the thread read. -/
def Fresh (C : Fin n → List Int) (a : Action n) (s : State n) : Prop :=
  ∀ i sum, a = .update i → s.phase i = .summed sum → sum < 0 →
    s.maxRowSum - (sum + (C i).sum) ≤ largest C - (C i).sum

-- ======================================================= the largest row

theorem le_largest (C : Fin n → List Int) (i : Fin n) :
    (C i).sum ≤ largest C :=
  (Finset.fold_max_le (largest C)).mp le_rfl |>.2 i (Finset.mem_univ i)

theorem largest_nonneg (C : Fin n → List Int) : 0 ≤ largest C :=
  (Finset.fold_max_le (largest C)).mp le_rfl |>.1

theorem largest_le {b : Int} (hb : 0 ≤ b) (h : ∀ i, (C i).sum ≤ b) :
    largest C ≤ b :=
  (Finset.fold_max_le b).mpr ⟨hb, fun i _ => h i⟩

/-- With a row there is, it is one of the row sums. -/
theorem Valid.largest_mem (h : Valid C) (i : Fin n) :
    ∃ j, largest C = (C j).sum := by
  obtain ⟨j, -, hj⟩ := Finset.exists_max_image Finset.univ
    (fun j => (C j).sum) ⟨i, Finset.mem_univ i⟩
  refine ⟨j, le_antisymm (largest_le ?_ fun k => hj k (Finset.mem_univ k))
    (le_largest C j)⟩
  exact List.sum_nonneg (h.entries j)

-- ========================================================== the two steps

theorem sub_eq {a b : Int} (hlo : INT_MIN ≤ a - b) (hhi : a - b ≤ INT_MAX) :
    sub a b = some (a - b) :=
  if_pos ⟨hlo, hhi⟩

/-- Subtracting the row stays in range: the partial differences lie between
the first value and the last. -/
theorem subtractRow_eq {row : List Int} (hrow : ∀ x ∈ row, 0 ≤ x) {v : Int}
    (hlo : INT_MIN ≤ v - row.sum) (hhi : v ≤ INT_MAX) :
    subtractRow row v = some (v - row.sum) := by
  induction row generalizing v with
  | nil => simp [subtractRow]
  | cons x row ih =>
      have hx : 0 ≤ x := hrow x List.mem_cons_self
      have hrest : ∀ y ∈ row, 0 ≤ y := fun y hy =>
        hrow y (List.mem_cons_of_mem x hy)
      have hnonneg : 0 ≤ row.sum := List.sum_nonneg hrest
      rw [List.sum_cons] at hlo ⊢
      have hv := ih hrest (v := v - x) (by omega) (by omega)
      unfold subtractRow
      rw [sub_eq (by omega) (by omega), Option.bind_eq_bind, Option.bind_some,
        hv]
      congr 1
      omega

/-- Under the lock: a thread whose row is covered changes nothing, and the
others move the value by the difference, if that is an `int`. -/
theorem compareAndUpdate_eq {v : Int} (hvhi : v ≤ INT_MAX)
    (hsum : sum ≤ v) :
    compareAndUpdate sum v =
      if 0 ≤ sum then some v
      else if v - sum ≤ INT_MAX then some (v - sum) else none := by
  have hmin : INT_MIN ≤ v - sum := by
    unfold INT_MIN
    omega
  unfold compareAndUpdate
  by_cases hpos : 0 ≤ sum
  · rw [sub_eq hmin (by omega), Option.bind_eq_bind, Option.bind_some,
      if_neg (not_lt.mpr hpos), if_pos hpos]
  · rw [if_neg hpos]
    by_cases hfit : v - sum ≤ INT_MAX
    · rw [sub_eq hmin hfit, Option.bind_eq_bind, Option.bind_some,
        if_pos (not_le.mp hpos), if_pos hfit]
    · unfold sub
      rw [if_neg fun hr => hfit hr.2, if_neg hfit]
      rfl

-- ========================================================== the invariant

/-- What holds whatever the order: `MAX_ROW_SUM` is an `int` that is at
least what any thread has read, and covers the rows that are done. -/
structure Covers (C : Fin n → List Int) (s : State n) : Prop where
  nonneg : 0 ≤ s.maxRowSum
  fits : s.maxRowSum ≤ INT_MAX
  read : ∀ i sum, s.phase i = .summed sum →
    0 ≤ sum + (C i).sum ∧ sum + (C i).sum ≤ s.maxRowSum
  done : ∀ i, s.phase i = .finished → (C i).sum ≤ s.maxRowSum

theorem covers_start : Covers C (.start n) where
  nonneg := le_rfl
  fits := by
    show (0 : Int) ≤ INT_MAX
    decide
  read := nofun
  done := nofun

/-- One thread moves on and the value grows. -/
theorem Covers.move (h : Covers C s) {v : Int} (hgrows : s.maxRowSum ≤ v)
    (hfits : v ≤ INT_MAX) {phase : Phase}
    (hread : ∀ sum, phase = .summed sum →
      0 ≤ sum + (C i).sum ∧ sum + (C i).sum ≤ v)
    (hdone : phase = .finished → (C i).sum ≤ v) :
    Covers C ⟨v, Function.update s.phase i phase⟩ := by
  constructor
  case nonneg => exact h.nonneg.trans hgrows
  case fits => exact hfits
  case read =>
    intro j sum hj
    by_cases hji : j = i
    · subst hji
      exact hread sum ((Function.update_self j phase s.phase).symm.trans hj)
    · have hj := (Function.update_of_ne hji phase s.phase).symm.trans hj
      exact ⟨(h.read j sum hj).1, (h.read j sum hj).2.trans hgrows⟩
  case done =>
    intro j hj
    by_cases hji : j = i
    · subst hji
      exact hdone ((Function.update_self j phase s.phase).symm.trans hj)
    · have hj := (Function.update_of_ne hji phase s.phase).symm.trans hj
      exact (h.done j hj).trans hgrows

/-- A thread reads. -/
theorem Covers.read_step (hC : Valid C) (h : Covers C s)
    (hi : s.phase i = .created) :
    ∃ s', step C (.read i) s = some s' ∧ Covers C s'
      ∧ s' = ⟨s.maxRowSum, Function.update s.phase i
          (.summed (s.maxRowSum - (C i).sum))⟩ := by
  have hsum : 0 ≤ (C i).sum := List.sum_nonneg (hC.entries i)
  have hfit := hC.sums i
  have hnonneg := h.nonneg
  have hmin : INT_MIN ≤ s.maxRowSum - (C i).sum := by
    unfold INT_MIN
    unfold INT_MAX at hfit
    omega
  refine ⟨⟨s.maxRowSum, Function.update s.phase i
    (.summed (s.maxRowSum - (C i).sum))⟩, ?_,
    h.move le_rfl h.fits ?_ (fun hfin => by cases hfin), rfl⟩
  · unfold step
    simp only [Action.thread, hi]
    rw [subtractRow_eq (hC.entries i) hmin h.fits]
    rfl
  · intro sum heq
    obtain rfl := Phase.summed.inj heq
    omega

/-- A thread updates: its row is covered afterwards, unless the new value is
no `int`. -/
theorem Covers.update_step (hC : Valid C) (h : Covers C s)
    (hi : s.phase i = .summed sum) :
    (step C (.update i) s = none ∧ sum < 0 ∧ INT_MAX < s.maxRowSum - sum)
    ∨ ∃ s', step C (.update i) s = some s' ∧ Covers C s'
      ∧ s' = ⟨if 0 ≤ sum then s.maxRowSum else s.maxRowSum - sum,
          Function.update s.phase i .finished⟩ := by
  obtain ⟨hlo, hhi⟩ := h.read i sum hi
  have hsum : 0 ≤ (C i).sum := List.sum_nonneg (hC.entries i)
  have hle : sum ≤ s.maxRowSum := by omega
  have hlock := compareAndUpdate_eq h.fits hle
  have hstep : step C (.update i) s
      = (compareAndUpdate sum s.maxRowSum).map fun v =>
        ⟨v, Function.update s.phase i .finished⟩ := by
    unfold step
    simp only [Action.thread, hi]
    exact (Option.map_eq_bind).symm
  rw [hstep, hlock]
  by_cases hpos : 0 ≤ sum
  · rw [if_pos hpos, if_pos hpos]
    exact .inr ⟨_, rfl, h.move le_rfl h.fits nofun fun _ => by omega, rfl⟩
  · rw [if_neg hpos, if_neg hpos]
    by_cases hfit : s.maxRowSum - sum ≤ INT_MAX
    · rw [if_pos hfit]
      exact .inr ⟨_, rfl, h.move (by omega) hfit nofun fun _ => by omega, rfl⟩
    · rw [if_neg hfit]
      exact .inl ⟨rfl, by omega, by omega⟩

-- ================================================================ the runs

/-- The steps a thread still has to take. -/
def remaining (i : Fin n) : Phase → List (Action n)
  | .created => [.read i, .update i]
  | .summed _ => [.update i]
  | .finished => []

/-- `acts` interleaves what the threads still have to do. -/
def Pending (acts : List (Action n)) (s : State n) : Prop :=
  ∀ i, (acts.filter fun a => a.thread = i) = remaining i (s.phase i)

theorem Pending.move {rest : List (Action n)} (h : Pending (a :: rest) s)
    (v : Int) (phase : Phase)
    (ha : remaining a.thread (s.phase a.thread) = a :: remaining a.thread phase) :
    Pending rest ⟨v, Function.update s.phase a.thread phase⟩ := by
  intro i
  have hi := h i
  by_cases hai : a.thread = i
  · subst hai
    rw [List.filter_cons_of_pos (by simp), ha] at hi
    rw [show (State.mk v _).phase a.thread = phase from Function.update_self ..]
    exact List.tail_eq_of_cons_eq hi
  · rw [List.filter_cons_of_neg (by simpa using hai)] at hi
    rw [show (State.mk v _).phase i = s.phase i from
      Function.update_of_ne (Ne.symm hai) ..]
    exact hi

/-- The next step is its thread's first open one. -/
theorem Pending.next {rest : List (Action n)} (h : Pending (a :: rest) s) :
    (∃ i, a = .read i ∧ s.phase i = .created)
    ∨ ∃ i sum, a = .update i ∧ s.phase i = .summed sum := by
  have ha := h a.thread
  rw [List.filter_cons_of_pos (by simp)] at ha
  cases hphase : s.phase a.thread with
  | created =>
      rw [hphase] at ha
      have heq : a = .read a.thread := List.head_eq_of_cons_eq ha
      exact .inl ⟨a.thread, heq, hphase⟩
  | summed sum =>
      rw [hphase] at ha
      have heq : a = .update a.thread := List.head_eq_of_cons_eq ha
      exact .inr ⟨a.thread, sum, heq, hphase⟩
  | finished =>
      rw [hphase] at ha
      cases ha

/-- When nothing is left to do, every row is covered. -/
theorem Covers.largest_le (h : Covers C s) (hp : Pending [] s) :
    largest C ≤ s.maxRowSum := by
  refine Matrix.largest_le h.nonneg fun i => h.done i ?_
  have hi := hp i
  cases hphase : s.phase i with
  | created =>
      rw [hphase] at hi
      cases hi
  | summed sum =>
      rw [hphase] at hi
      cases hi
  | finished => rfl

/-- Fresh updates do not overshoot. -/
theorem run_of_fresh (hC : Valid C) (acts : List (Action n)) (h : Covers C s)
    (hp : Pending acts s) (hle : s.maxRowSum ≤ largest C)
    (hfresh : Lib.Along (threads C) (Fresh C) acts s) :
    ∃ s', Lib.run (threads C) acts s = some s' ∧ s'.maxRowSum = largest C := by
  induction acts generalizing s with
  | nil => exact ⟨s, rfl, le_antisymm hle (h.largest_le hp)⟩
  | cons a rest ih =>
      obtain ⟨hnow, hlater⟩ := hfresh
      rcases hp.next with ⟨i, rfl, hi⟩ | ⟨i, sum, rfl, hi⟩
      · obtain ⟨s₁, hstep, h₁, rfl⟩ := h.read_step hC hi
        have hp₁ := hp.move s.maxRowSum
          (.summed (s.maxRowSum - (C i).sum))
          (by rw [Action.thread, hi]; rfl)
        obtain ⟨s', hrun, hmax⟩ := ih h₁ hp₁ hle (hlater _ hstep)
        refine ⟨s', ?_, hmax⟩
        unfold Lib.run
        rw [show (threads C).step (.read i) s = _ from hstep]
        exact hrun
      · have hdrift := hnow i sum rfl hi
        obtain ⟨s₁, hstep, h₁, rfl⟩ : ∃ s', step C (.update i) s = some s'
            ∧ Covers C s' ∧ s' = ⟨if 0 ≤ sum then s.maxRowSum
              else s.maxRowSum - sum, Function.update s.phase i .finished⟩ := by
          refine (h.update_step hC hi).resolve_left fun hover => ?_
          have hfit : largest C ≤ INT_MAX :=
            Matrix.largest_le (by decide) hC.sums
          have := hdrift hover.2.1
          omega
        have hp₁ := hp.move
          (if 0 ≤ sum then s.maxRowSum else s.maxRowSum - sum) .finished
          (by rw [Action.thread, hi]; rfl)
        have hle₁ : (if 0 ≤ sum then s.maxRowSum else s.maxRowSum - sum)
            ≤ largest C := by
          split
          case isTrue => exact hle
          case isFalse hneg =>
            have := hdrift (not_le.mp hneg)
            omega
        obtain ⟨s', hrun, hmax⟩ := ih h₁ hp₁ hle₁ (hlater _ hstep)
        refine ⟨s', ?_, hmax⟩
        unfold Lib.run
        rw [show (threads C).step (.update i) s = _ from hstep]
        exact hrun

/-- What has overshot stays too large. -/
theorem fresh_of_run (hC : Valid C) (acts : List (Action n)) (h : Covers C s)
    (hp : Pending acts s) (hrun : Lib.run (threads C) acts s = some s') :
    s.maxRowSum ≤ s'.maxRowSum
      ∧ (s'.maxRowSum ≤ largest C →
        Lib.Along (threads C) (Fresh C) acts s) := by
  induction acts generalizing s with
  | nil =>
      obtain rfl := Option.some.inj hrun
      exact ⟨le_rfl, fun _ => trivial⟩
  | cons a rest ih =>
      unfold Lib.run at hrun
      rcases hp.next with ⟨i, rfl, hi⟩ | ⟨i, sum, rfl, hi⟩
      · obtain ⟨s₁, hstep, h₁, rfl⟩ := h.read_step hC hi
        rw [show (threads C).step (.read i) s = _ from hstep] at hrun
        have hp₁ := hp.move s.maxRowSum
          (.summed (s.maxRowSum - (C i).sum))
          (by rw [Action.thread, hi]; rfl)
        obtain ⟨hgrows, hfresh⟩ := ih h₁ hp₁ hrun
        refine ⟨hgrows, fun hle => ⟨(fun i sum ha => by cases ha), ?_⟩⟩
        intro t ht
        obtain rfl := Option.some.inj (hstep.symm.trans ht)
        exact hfresh hle
      · rcases h.update_step hC hi with ⟨hnone, -⟩ | ⟨s₁, hstep, h₁, rfl⟩
        · rw [show (threads C).step (.update i) s = _ from hnone] at hrun
          cases hrun
        · rw [show (threads C).step (.update i) s = _ from hstep] at hrun
          have hp₁ := hp.move
            (if 0 ≤ sum then s.maxRowSum else s.maxRowSum - sum) .finished
            (by rw [Action.thread, hi]; rfl)
          obtain ⟨hgrows, hfresh⟩ := ih h₁ hp₁ hrun
          refine ⟨le_trans ?_ hgrows, fun hle => ⟨?_, fun t ht => ?_⟩⟩
          · dsimp only
            split
            case isTrue => exact le_rfl
            case isFalse => omega
          · intro j sum' heq hj hneg
            cases heq
            obtain rfl := Phase.summed.inj (hi.symm.trans hj)
            rw [if_neg (not_le.mpr hneg)] at hgrows
            dsimp only at hgrows
            omega
          · obtain rfl := Option.some.inj (hstep.symm.trans ht)
            exact hfresh hle

-- ============================================================ the program

/-- `MAX_ROW_SUM` is the largest row sum after the last thread if and only
if every update that moves it is fresh enough. -/
theorem max_row_sum_iff (hC : Valid C) {acts : List (Action n)}
    (hacts : Interleaving acts) :
    (∃ s, Lib.run (threads C) acts (.start n) = some s
        ∧ s.maxRowSum = largest C)
      ↔ Lib.Along (threads C) (Fresh C) acts (.start n) := by
  have hp : Pending acts (.start n) := hacts
  constructor
  · intro h
    obtain ⟨s, hrun, hmax⟩ := h
    exact (fresh_of_run hC acts covers_start hp hrun).2 hmax.le
  · exact run_of_fresh hC acts covers_start hp (largest_nonneg C)

/-- Both threads read 0 and the smaller row goes first: the difference of
the larger one is added to 3. -/
theorem max_row_sum_overshoots :
    Valid ![[5, 0], [1, 2]]
      ∧ Interleaving (n := 2) [.read 0, .read 1, .update 1, .update 0]
      ∧ ∃ s, Lib.run (threads ![[5, 0], [1, 2]])
          [.read 0, .read 1, .update 1, .update 0] (.start 2) = some s
        ∧ s.maxRowSum = 8 ∧ largest ![[5, 0], [1, 2]] = 5 := by
  refine ⟨⟨by decide, by decide⟩, by decide, ?_⟩
  exact ⟨(Lib.run (threads ![[5, 0], [1, 2]])
      [.read 0, .read 1, .update 1, .update 0] (.start 2)).get
    (by decide +kernel), (Option.some_get _).symm, by decide +kernel,
    by decide +kernel⟩

/-- The theorem for two orders of the steps: the smaller row reads what the
larger one has left, or both read 0. -/
theorem max_row_sum_iff_orders :
    Lib.Along (threads ![[5, 0], [1, 2]]) (Fresh ![[5, 0], [1, 2]])
        [.read 0, .update 0, .read 1, .update 1] (.start 2)
      ∧ ¬Lib.Along (threads ![[5, 0], [1, 2]]) (Fresh ![[5, 0], [1, 2]])
        [.read 0, .read 1, .update 1, .update 0] (.start 2) := by
  have hC : Valid ![[5, 0], [1, 2]] := ⟨by decide, by decide⟩
  constructor
  · refine (max_row_sum_iff hC (by decide)).mp ?_
    exact ⟨(Lib.run (threads ![[5, 0], [1, 2]])
        [.read 0, .update 0, .read 1, .update 1] (.start 2)).get
      (by decide +kernel), (Option.some_get _).symm, by decide +kernel⟩
  · intro hfresh
    obtain ⟨s, hrun, hmax⟩ := (max_row_sum_iff hC (by decide)).mpr hfresh
    have hover : (Lib.run (threads ![[5, 0], [1, 2]])
        [.read 0, .read 1, .update 1, .update 0] (.start 2)).map
        (fun s => s.maxRowSum) = some 8 := by
      decide +kernel
    rw [hrun, Option.map_some, Option.some.injEq, hmax] at hover
    exact absurd hover (by decide +kernel)

end OperatingSystem.Matrix
