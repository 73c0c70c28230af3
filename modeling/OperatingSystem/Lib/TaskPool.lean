/-
A pool of cooperative tasks that can wait for one another to finish: the
abstract model of a user-level scheduler, over any type of task names.

# The model

A task is running, ready, in the waiting set of another task, done, or —
if the scheduler forgot it — nowhere. A `Move` is one scheduling decision:
the running task gives up the processor in one of four ways (`rotate`,
`block`, `finish`, `drop`) and the next one is taken from the ready tasks;
with nobody running (`pick`) the next one is simply taken; `spawn` adds a
task. Nothing is said about WHICH ready task is taken: every queueing
discipline refines the pool.

# Two invariants

- `Pool.Inv` holds along every run whatever the tasks do: a task is in at
  most one place, and a done task in none.
- `Pool.Full` is the no-task-is-lost invariant: every task that is not
  done is in exactly one place, waits only for tasks that are not done,
  and waits form no cycle. It survives every move but `drop`, and a
  `block` only when the new wait closes no cycle.
-/
import OperatingSystem.Lib.WaitGraph
import Mathlib.Algebra.BigOperators.Group.Finset.Basic
import Mathlib.Algebra.Order.BigOperators.Group.Finset
import Mathlib.Algebra.BigOperators.Group.Finset.Piecewise
import Mathlib.Data.Multiset.Count
import Mathlib.Data.Multiset.AddSub

namespace OperatingSystem.Lib

open Relation (ReflTransGen)

/-- Who is where. `waiters u` are the tasks waiting for `u` to finish. -/
@[ext] structure Pool (ι : Type*) where
  all : Finset ι
  done : ι → Prop
  running : Option ι
  ready : Multiset ι
  waiters : ι → Multiset ι

variable {ι : Type*} [DecidableEq ι]

/-- The next task is taken out of the ready tasks `q`, if there is one. -/
inductive Takes (q : Multiset ι) : Option ι → Multiset ι → Prop
  | next {n : ι} {rest : Multiset ι} (h : q = n ::ₘ rest) :
      Takes q (some n) rest
  | empty (h : q = 0) : Takes q none 0

/-- How a move treats the task that gives up the processor: it keeps it in
the pool, makes it wait for another, or forgets it. -/
inductive Way (ι : Type*)
  | keep
  | wait (t u : ι)
  | drop (t : ι)

/-- One scheduling decision. -/
inductive Move (p : Pool ι) : Way ι → Pool ι → Prop
  | spawn {t : ι} (hnew : t ∉ p.all) :
      Move p .keep { p with all := insert t p.all, ready := t ::ₘ p.ready }
  | pick {o : Option ι} {q : Multiset ι} (hidle : p.running = none)
      (htake : Takes p.ready o q) :
      Move p .keep { p with running := o, ready := q }
  | rotate {t : ι} {o : Option ι} {q : Multiset ι}
      (hrun : p.running = some t) (htake : Takes (t ::ₘ p.ready) o q) :
      Move p .keep { p with running := o, ready := q }
  | block {t u n : ι} {q : Multiset ι} (hrun : p.running = some t)
      (hu : u ∈ p.all) (htake : p.ready = n ::ₘ q) :
      Move p (.wait t u) { p with
        running := some n, ready := q
        waiters := Function.update p.waiters u (t ::ₘ p.waiters u) }
  | finish {t : ι} {o : Option ι} {q : Multiset ι}
      (hrun : p.running = some t) (htake : Takes (p.ready + p.waiters t) o q) :
      Move p .keep { p with
        done := fun x => p.done x ∨ x = t
        running := o, ready := q
        waiters := Function.update p.waiters t 0 }
  | drop {t : ι} (hrun : p.running = some t) (hempty : p.ready = 0) :
      Move p (.drop t) { p with running := none }

/-- `x` waits for `u`. -/
def Pool.Waits (p : Pool ι) (x u : ι) : Prop := x ∈ p.waiters u

/-- In how many places task `x` is, counting repetitions. -/
def Pool.places (p : Pool ι) (x : ι) : Nat :=
  (if p.running = some x then 1 else 0) + p.ready.count x
    + ∑ u ∈ p.all, (p.waiters u).count x

/-- What holds of every pool: nobody is in two places, the done tasks are
in none, and only known tasks are anywhere or waited for. -/
structure Pool.Inv (p : Pool ι) : Prop where
  once : ∀ x, p.places x ≤ 1
  done_nowhere : ∀ x, p.done x → p.places x = 0
  known : ∀ x, p.places x ≠ 0 → x ∈ p.all
  waiters_known : ∀ u, p.waiters u ≠ 0 → u ∈ p.all
  done_known : ∀ x, p.done x → x ∈ p.all

/-- No task is lost. -/
structure Pool.Full (p : Pool ι) : Prop extends p.Inv where
  somewhere : ∀ x ∈ p.all, ¬p.done x → p.places x = 1
  freed : ∀ u, p.done u → p.waiters u = 0
  acyclic : Acyclic p.Waits

-- ============================================================= counting

variable {p p' : Pool ι} {w : Way ι} {t u x : ι}

omit [DecidableEq ι] in
theorem Takes.ready_eq_zero {q r : Multiset ι} (h : Takes q none r) :
    r = 0 ∧ q = 0 := by
  cases h with
  | empty h => exact ⟨rfl, h⟩

omit [DecidableEq ι] in
/-- Nothing is taken exactly from an empty queue. -/
theorem Takes.none_iff {q r : Multiset ι} {o : Option ι} (h : Takes q o r) :
    o = none ↔ q = 0 := by
  cases h with
  | next h =>
      rw [h]
      exact iff_of_false nofun Multiset.cons_ne_zero
  | empty h => exact iff_of_true rfl h

/-- Taking the next task moves it, it does not copy or lose it. -/
theorem Takes.count {q r : Multiset ι} {o : Option ι} (h : Takes q o r)
    (x : ι) : q.count x = (if o = some x then 1 else 0) + r.count x := by
  cases h with
  | next h =>
      rw [h, Multiset.count_cons]
      simp only [Option.some.injEq, eq_comm (a := x)]
      omega
  | empty h => simp [h]

/-- Changing one waiting set shifts the sum over all of them by the
difference. -/
theorem sum_waiters_update {S : Finset ι} (w : ι → Multiset ι) {u : ι}
    (hu : u ∈ S) (m : Multiset ι) (x : ι) :
    (∑ y ∈ S, (Function.update w u m y).count x) + (w u).count x
      = (∑ y ∈ S, (w y).count x) + m.count x := by
  rw [← Finset.add_sum_erase S _ hu, ← Finset.add_sum_erase S
    (fun y => (w y).count x) hu]
  have hrest : ∑ y ∈ S.erase u, (Function.update w u m y).count x
      = ∑ y ∈ S.erase u, (w y).count x :=
    Finset.sum_congr rfl fun y hy => by
      rw [Function.update_of_ne (Finset.ne_of_mem_erase hy)]
  rw [hrest, Function.update_self]
  omega

/-- A running task is in a place. -/
theorem Pool.places_of_running (h : p.running = some t) :
    p.places t ≠ 0 := by
  simp [Pool.places, h]

/-- A ready task is in a place. -/
theorem Pool.places_of_ready (h : x ∈ p.ready) : p.places x ≠ 0 := by
  have := Multiset.count_pos.mpr h
  unfold Pool.places
  omega

/-- A waiting task is in a place. -/
theorem Pool.places_of_waits (hu : u ∈ p.all) (h : p.Waits x u) :
    p.places x ≠ 0 := by
  have hpos := Multiset.count_pos.mpr h
  have hle := Finset.single_le_sum (f := fun y => (p.waiters y).count x)
    (fun _ _ => Nat.zero_le _) hu
  unfold Pool.places
  omega

/-- A task in a place is running, ready or waiting. -/
theorem Pool.cases_of_places (h : p.places x ≠ 0) :
    p.running = some x ∨ x ∈ p.ready ∨ ∃ u ∈ p.all, p.Waits x u := by
  by_contra hno
  push Not at hno
  obtain ⟨hrun, hready, hwait⟩ := hno
  refine h ?_
  unfold Pool.places
  rw [if_neg hrun, Multiset.count_eq_zero.mpr hready,
    Finset.sum_eq_zero fun u hu => Multiset.count_eq_zero.mpr (hwait u hu)]
  rfl

-- ============================================ places, move by move

/-- A new task gets the place it is spawned into. -/
theorem places_spawn (hI : p.Inv) (hnew : t ∉ p.all) (x : ι) :
    ({ p with all := insert t p.all, ready := t ::ₘ p.ready }
        : Pool ι).places x
      = p.places x + (if x = t then 1 else 0) := by
  have hw : p.waiters t = 0 := by
    by_contra hne
    exact hnew (hI.waiters_known t hne)
  simp only [Pool.places, Multiset.count_cons, Finset.sum_insert hnew, hw,
    Multiset.count_zero]
  omega

/-- With nobody running, taking the next task moves it. -/
theorem places_pick {o : Option ι} {q : Multiset ι}
    (hidle : p.running = none) (htake : Takes p.ready o q) (x : ι) :
    ({ p with running := o, ready := q } : Pool ι).places x
      = p.places x := by
  have := htake.count x
  simp only [Pool.places, hidle, reduceCtorEq, if_false]
  omega

/-- The running task goes back to the ready tasks, the next one leaves
them. -/
theorem places_rotate {o : Option ι} {q : Multiset ι}
    (hrun : p.running = some t) (htake : Takes (t ::ₘ p.ready) o q)
    (x : ι) :
    ({ p with running := o, ready := q } : Pool ι).places x
      = p.places x := by
  have := htake.count x
  simp only [Multiset.count_cons] at this
  simp only [Pool.places, hrun, Option.some.injEq, eq_comm (a := t)]
  omega

/-- The running task goes to a waiting set, the next one leaves the ready
tasks. -/
theorem places_block {n : ι} {q : Multiset ι} (hrun : p.running = some t)
    (hu : u ∈ p.all) (htake : p.ready = n ::ₘ q) (x : ι) :
    ({ p with
        running := some n, ready := q
        waiters := Function.update p.waiters u (t ::ₘ p.waiters u) }
        : Pool ι).places x
      = p.places x := by
  have hsum := sum_waiters_update p.waiters hu (t ::ₘ p.waiters u) x
  rw [Multiset.count_cons] at hsum
  simp only [Pool.places, hrun, htake, Option.some.injEq,
    Multiset.count_cons, eq_comm (a := t), eq_comm (a := n)]
  omega

/-- The finished task leaves the pool and its waiters become ready. -/
theorem places_finish (hI : p.Inv) {o : Option ι} {q : Multiset ι}
    (hrun : p.running = some t) (htake : Takes (p.ready + p.waiters t) o q)
    (x : ι) :
    ({ p with
        done := fun y => p.done y ∨ y = t
        running := o, ready := q
        waiters := Function.update p.waiters t 0 } : Pool ι).places x
        + (if x = t then 1 else 0)
      = p.places x := by
  have hsum := sum_waiters_update p.waiters
    (hI.known t (Pool.places_of_running hrun)) 0 x
  have htk := htake.count x
  rw [Multiset.count_add] at htk
  simp only [Multiset.count_zero, Nat.add_zero] at hsum
  simp only [Pool.places, hrun, Option.some.injEq, eq_comm (a := t)]
  omega

/-- The dropped task loses its only place. -/
theorem places_drop (hrun : p.running = some t) (x : ι) :
    ({ p with running := none } : Pool ι).places x
        + (if x = t then 1 else 0)
      = p.places x := by
  simp only [Pool.places, hrun, reduceCtorEq, if_false, Option.some.injEq,
    eq_comm (a := t)]
  omega

/-- A task that becomes ready gets one place more. -/
theorem places_push (t x : ι) :
    ({ p with ready := t ::ₘ p.ready } : Pool ι).places x
      = p.places x + (if x = t then 1 else 0) := by
  simp only [Pool.places, Multiset.count_cons]
  omega

/-- A task that is only known is nowhere. -/
theorem places_extend (hI : p.Inv) (hnew : t ∉ p.all) (x : ι) :
    ({ p with all := insert t p.all } : Pool ι).places x = p.places x := by
  have hw : p.waiters t = 0 := by
    by_contra hne
    exact hnew (hI.waiters_known t hne)
  simp only [Pool.places, Finset.sum_insert hnew, hw, Multiset.count_zero]
  omega

/-- No move but `spawn` gives anybody a place. -/
theorem Move.places_le (hI : p.Inv) (h : Move p w p') (hall : p'.all = p.all)
    (x : ι) : p'.places x ≤ p.places x := by
  cases h with
  | @spawn t hnew =>
      exact absurd (hall ▸ Finset.mem_insert_self t p.all) hnew
  | pick hidle htake => exact (places_pick hidle htake x).le
  | rotate hrun htake => exact (places_rotate hrun htake x).le
  | block hrun hu htake => exact (places_block hrun hu htake x).le
  | finish hrun htake =>
      have := places_finish hI hrun htake x
      omega
  | drop hrun _ =>
      have := places_drop hrun x
      omega

-- ================================================== the places discipline

/-- A move that changes no place, no waiting set of an unknown task and no
done task preserves the discipline. -/
theorem Pool.Inv.of_places_eq (hI : p.Inv) (hpl : ∀ x, p'.places x = p.places x)
    (hall : p'.all = p.all) (hdone : p'.done = p.done)
    (hw : ∀ u, p'.waiters u ≠ 0 → u ∈ p.all) : p'.Inv where
  once x := hpl x ▸ hI.once x
  done_nowhere x hx := hpl x ▸ hI.done_nowhere x (hdone ▸ hx)
  known x hx := hall ▸ hI.known x (hpl x ▸ hx)
  waiters_known u hu := hall ▸ hw u hu
  done_known x hx := hall ▸ hI.done_known x (hdone ▸ hx)

/-- A new task may be known before it is ready. -/
theorem Pool.Inv.extend (hI : p.Inv) (hnew : t ∉ p.all) :
    ({ p with all := insert t p.all } : Pool ι).Inv := by
  have hpl := places_extend hI hnew
  constructor
  case once =>
    intro x
    rw [hpl]
    exact hI.once x
  case done_nowhere =>
    intro x hx
    rw [hpl]
    exact hI.done_nowhere x hx
  case known =>
    intro x hx
    rw [hpl] at hx
    exact Finset.mem_insert_of_mem (hI.known x hx)
  case waiters_known =>
    exact fun u hu => Finset.mem_insert_of_mem (hI.waiters_known u hu)
  case done_known =>
    exact fun x hx => Finset.mem_insert_of_mem (hI.done_known x hx)

/-- A known task that is nowhere and not done may become ready. -/
theorem Pool.Inv.push (hI : p.Inv) (hmem : t ∈ p.all) (hd : ¬p.done t)
    (hno : p.places t = 0) :
    ({ p with ready := t ::ₘ p.ready } : Pool ι).Inv := by
  have hpl := places_push (p := p) t
  constructor
  case once =>
    intro x
    rw [hpl]
    have := hI.once x
    split
    case isTrue he => rw [he, hno]
    case isFalse => omega
  case done_nowhere =>
    intro x hx
    have hne : x ≠ t := fun he => hd (he ▸ hx)
    rw [hpl, if_neg hne, hI.done_nowhere x hx]
  case known =>
    intro x hx
    rw [hpl] at hx
    by_cases he : x = t
    · exact he ▸ hmem
    · rw [if_neg he] at hx
      exact hI.known x hx
  case waiters_known => exact hI.waiters_known
  case done_known => exact hI.done_known

/-- Every move preserves the places discipline. -/
theorem Pool.Inv.move (hI : p.Inv) (h : Move p w p') : p'.Inv := by
  cases h with
  | @spawn t hnew =>
      -- known first, ready then
      have hno : p.places t = 0 := by
        by_contra hne
        exact hnew (hI.known t hne)
      have hd : ¬p.done t := fun hd => hnew (hI.done_known t hd)
      refine (hI.extend hnew).push (Finset.mem_insert_self t p.all) hd ?_
      rw [places_extend hI hnew, hno]
  | pick hidle htake =>
      exact hI.of_places_eq (places_pick hidle htake) rfl rfl hI.waiters_known
  | rotate hrun htake =>
      exact hI.of_places_eq (places_rotate hrun htake) rfl rfl
        hI.waiters_known
  | @block t u n q hrun hu htake =>
      refine hI.of_places_eq (places_block hrun hu htake) rfl rfl ?_
      intro y hy
      by_cases he : y = u
      · exact he ▸ hu
      · refine hI.waiters_known y ?_
        simpa [Function.update_of_ne he] using hy
  | @finish t o q hrun htake =>
      have hpl := places_finish hI hrun htake
      have hone := hI.once t
      constructor
      case once => exact fun x => Nat.le_trans (by rw [← hpl x]; omega) (hI.once x)
      case done_nowhere =>
        rintro x (hx | rfl)
        · have := hpl x
          rw [hI.done_nowhere x hx] at this
          omega
        · have := hpl x
          rw [if_pos rfl] at this
          omega
      case known =>
        intro x hx
        refine hI.known x ?_
        rw [← hpl x]
        omega
      case waiters_known =>
        intro y hy
        by_cases he : y = t
        · simp [he] at hy
        · refine hI.waiters_known y ?_
          simpa [Function.update_of_ne he] using hy
      case done_known =>
        rintro x (hx | rfl)
        · exact hI.done_known x hx
        · exact hI.known x (Pool.places_of_running hrun)
  | drop hrun hempty =>
      have hpl := places_drop hrun
      constructor
      case once => exact fun x => Nat.le_trans (by rw [← hpl x]; omega) (hI.once x)
      case done_nowhere =>
        intro x hx
        have := hpl x
        rw [hI.done_nowhere x hx] at this
        omega
      case known =>
        intro x hx
        refine hI.known x ?_
        rw [← hpl x]
        omega
      case waiters_known => exact hI.waiters_known
      case done_known => exact hI.done_known

-- ====================================================== no task is lost

/-- Where a task that is not done is. -/
theorem Pool.Full.cases (hF : p.Full) (hx : x ∈ p.all) (hd : ¬p.done x) :
    p.running = some x ∨ x ∈ p.ready ∨ ∃ u ∈ p.all, ¬p.done u ∧ p.Waits x u := by
  have hone := hF.somewhere x hx hd
  rcases Pool.cases_of_places (by omega : p.places x ≠ 0) with h | h | ⟨u, hu, h⟩
  · exact .inl h
  · exact .inr (.inl h)
  · refine .inr (.inr ⟨u, hu, fun hdu => ?_, h⟩)
    unfold Pool.Waits at h
    rw [hF.freed u hdu] at h
    exact absurd h (Multiset.notMem_zero x)

/-- A nonempty set of unfinished tasks closed under waiting has a member
that is running or ready: the acyclicity argument. -/
theorem Pool.Full.exists_able (hF : p.Full) (S : Finset ι) (hS : S.Nonempty)
    (hsub : ∀ y ∈ S, y ∈ p.all ∧ ¬p.done y)
    (hclosed : ∀ y ∈ S, ∀ u ∈ p.all, ¬p.done u → p.Waits y u → u ∈ S) :
    ∃ y ∈ S, p.running = some y ∨ y ∈ p.ready := by
  obtain ⟨m, hm, hsink⟩ := exists_sink hF.acyclic S hS
  obtain ⟨hall, hd⟩ := hsub m hm
  rcases hF.cases hall hd with h | h | ⟨u, hu, hdu, hw⟩
  · exact ⟨m, hm, .inl h⟩
  · exact ⟨m, hm, .inr h⟩
  · exact absurd hw (hsink u (hclosed m hm u hu hdu hw))

/-- With nobody running and nobody ready everybody is done. -/
theorem Pool.Full.all_done (hF : p.Full) (hrun : p.running = none)
    (hready : p.ready = 0) : ∀ x ∈ p.all, p.done x := by
  classical
  by_contra hno
  push Not at hno
  obtain ⟨x, hx, hd⟩ := hno
  obtain ⟨y, -, hy⟩ := hF.exists_able (p.all.filter fun y => ¬p.done y)
    ⟨x, Finset.mem_filter.mpr ⟨hx, hd⟩⟩
    (fun y hy => Finset.mem_filter.mp hy)
    (fun _ _ u hu hdu _ => Finset.mem_filter.mpr ⟨hu, hdu⟩)
  rcases hy with hy | hy
  · rw [hrun] at hy
    cases hy
  · rw [hready] at hy
    exact absurd hy (Multiset.notMem_zero y)

/-- A task that waits for an unfinished one without closing a cycle leaves
somebody ready. -/
theorem Pool.Full.ready_of_join (hF : p.Full) (hrun : p.running = some t)
    (hu : u ∈ p.all) (hd : ¬p.done u) (hno : ¬ReflTransGen p.Waits u t) :
    p.ready ≠ 0 := by
  classical
  intro hready
  -- everybody `u` transitively waits for, an unfinished set without `t`
  let S := p.all.filter fun y => ¬p.done y ∧ ReflTransGen p.Waits u y
  obtain ⟨y, hy, hable⟩ := hF.exists_able S
    ⟨u, Finset.mem_filter.mpr ⟨hu, hd, .refl⟩⟩
    (fun y hy => ⟨(Finset.mem_filter.mp hy).1, (Finset.mem_filter.mp hy).2.1⟩)
    (fun y hy w hw hdw hyw => Finset.mem_filter.mpr
      ⟨hw, hdw, (Finset.mem_filter.mp hy).2.2.tail hyw⟩)
  rcases hable with h | h
  · rw [hrun] at h
    exact hno (Option.some.inj h ▸ (Finset.mem_filter.mp hy).2.2)
  · rw [hready] at h
    exact absurd h (Multiset.notMem_zero y)

/-- A move that loses nobody: it forgets no task, and a new wait is for an
unfinished task and closes no cycle. -/
def Way.Safe (p : Pool ι) : Way ι → Prop
  | .keep => True
  | .wait t u => ¬p.done u ∧ ¬ReflTransGen p.Waits u t
  | .drop _ => False

/-- A task's only way out of the pool is to be done. -/
theorem Pool.Full.of_places_eq (hF : p.Full) (hI : p'.Inv)
    (hpl : ∀ x, p'.places x = p.places x) (hall : p'.all = p.all)
    (hdone : p'.done = p.done) (hfreed : ∀ u, p'.done u → p'.waiters u = 0)
    (hac : Acyclic p'.Waits) : p'.Full where
  toInv := hI
  somewhere x hx hd :=
    hpl x ▸ hF.somewhere x (hall ▸ hx) (fun h => hd (hdone ▸ h))
  freed := hfreed
  acyclic := hac

omit [DecidableEq ι] in
theorem Way.Safe.not_done_of_wait (hsafe : w.Safe p) (hw : w = .wait t u) :
    ¬p.done u := by
  subst hw
  exact hsafe.1

/-- Nobody waits for a done task, as long as nobody starts to. -/
theorem Move.freed (h : Move p w p')
    (hfreed : ∀ u, p.done u → p.waiters u = 0)
    (hw : ∀ t u, w = .wait t u → ¬p.done u) :
    ∀ u, p'.done u → p'.waiters u = 0 := by
  intro y hy
  cases h with
  | spawn | pick | rotate | drop => exact hfreed y hy
  | @block t u n q hrun hu htake =>
      have hne : y ≠ u := fun he => hw t u rfl (he ▸ hy)
      simp [Function.update_of_ne hne, hfreed y hy]
  | @finish t o q hrun htake =>
      by_cases he : y = t
      · simp [he]
      · simp [Function.update_of_ne he, hfreed y (hy.resolve_right he)]

/-- A safe move keeps every task. -/
theorem Pool.Full.move (hF : p.Full) (h : Move p w p') (hsafe : w.Safe p) :
    p'.Full := by
  have hI' := hF.toInv.move h
  have hfreed := h.freed hF.freed fun _ _ => hsafe.not_done_of_wait
  cases h with
  | @spawn t hnew =>
      have hpl := places_spawn hF.toInv hnew
      refine ⟨hI', fun x hx hd => ?_, hfreed, hF.acyclic⟩
      rw [hpl]
      rcases Finset.mem_insert.mp hx with rfl | hx
      · have hzero : p.places x = 0 := by
          by_contra hne
          exact hnew (hF.known x hne)
        rw [hzero, if_pos rfl]
      · have hne : x ≠ t := fun he => hnew (he ▸ hx)
        rw [if_neg hne, hF.somewhere x hx hd]
  | pick hidle htake =>
      exact hF.of_places_eq hI' (places_pick hidle htake) rfl rfl hfreed
        hF.acyclic
  | rotate hrun htake =>
      exact hF.of_places_eq hI' (places_rotate hrun htake) rfl rfl hfreed
        hF.acyclic
  | @block t u n q hrun hu htake =>
      refine hF.of_places_eq hI' (places_block hrun hu htake) rfl rfl hfreed ?_
      refine acyclic_insert hF.acyclic (fun x y hxy => ?_) hsafe.2
      unfold Pool.Waits at hxy ⊢
      by_cases he : y = u
      · subst he
        simp only [Function.update_self, Multiset.mem_cons] at hxy
        exact hxy.symm.imp_right fun hx => ⟨hx, rfl⟩
      · exact .inl (by simpa [Function.update_of_ne he] using hxy)
  | @finish t o q hrun htake =>
      have hpl := places_finish hF.toInv hrun htake
      refine ⟨hI', fun x hx hd => ?_, hfreed, ?_⟩
      · have hne : x ≠ t := fun he => hd (.inr he)
        have := hpl x
        rw [if_neg hne, hF.somewhere x hx fun h => hd (.inl h)] at this
        exact this
      · refine hF.acyclic.mono fun x y hxy => ?_
        unfold Pool.Waits at hxy ⊢
        by_cases he : y = t
        · simp [he] at hxy
        · simpa [Function.update_of_ne he] using hxy
  | drop => exact hsafe.elim

-- ============================================ waiting until it is done

/-- `x` stays off the processor until `u` is done: it is neither running
nor ready, and waits for nobody else. -/
def Pool.Parked (p : Pool ι) (x u : ι) : Prop :=
  x ∈ p.all ∧ (p.done u
    ∨ p.running ≠ some x ∧ x ∉ p.ready ∧ ∀ v, v ≠ u → ¬p.Waits x v)

omit [DecidableEq ι] in
/-- Whoever is taken or left in the ready tasks was ready before. -/
theorem Takes.not_mem {q r : Multiset ι} {o : Option ι} (h : Takes q o r)
    (hx : x ∉ q) : o ≠ some x ∧ x ∉ r := by
  cases h with
  | next h =>
      rw [h, Multiset.mem_cons] at hx
      push Not at hx
      exact ⟨fun he => hx.1 (Option.some.inj he).symm, hx.2⟩
  | empty => exact ⟨by simp, Multiset.notMem_zero x⟩

/-- The running task is in no other place. -/
theorem Pool.Inv.nowhere_else (hI : p.Inv) (hrun : p.running = some t) :
    t ∉ p.ready ∧ ∀ v, ¬p.Waits t v := by
  have hone := hI.once t
  unfold Pool.places at hone
  rw [if_pos hrun] at hone
  refine ⟨fun hm => ?_, fun v hv => ?_⟩
  · have := Multiset.count_pos.mpr hm
    omega
  · have hpos := Multiset.count_pos.mpr hv
    have hvall : v ∈ p.all := hI.waiters_known v fun hz => by
      unfold Pool.Waits at hv
      rw [hz] at hv
      exact absurd hv (Multiset.notMem_zero t)
    have hle := Finset.single_le_sum (f := fun y => (p.waiters y).count t)
      (fun _ _ => Nat.zero_le _) hvall
    omega

/-- The running task that starts to wait for `u`, or is dropped, is neither
running nor ready, and waits for nobody else. -/
theorem not_able_of_gives_up (hI : p.Inv) (hrun : p.running = some t)
    (h : Move p w p') (hw : w = .wait t u ∨ w = .drop t) :
    p'.running ≠ some t ∧ t ∉ p'.ready ∧ ∀ v, v ≠ u → ¬p'.Waits t v := by
  obtain ⟨hready, hwait⟩ := hI.nowhere_else hrun
  cases h with
  | @block t' u' n q hrun' _ htake =>
      have ht : t' = t ∧ u' = u := by simpa using hw
      obtain ⟨rfl, rfl⟩ := ht
      have := (Takes.next htake).not_mem hready
      refine ⟨this.1, this.2, fun v hv hvw => hwait v ?_⟩
      simpa [Pool.Waits, Function.update_of_ne hv] using hvw
  | drop => exact ⟨by simp, hready, fun v _ => hwait v⟩
  | _ => simp at hw

/-- Such a task is parked behind `u`. -/
theorem parked_of_gives_up (hI : p.Inv) (hrun : p.running = some t)
    (h : Move p w p') (hw : w = .wait t u ∨ w = .drop t) :
    p'.Parked t u := by
  refine ⟨?_, .inr (not_able_of_gives_up hI hrun h hw)⟩
  have hall := hI.known t (Pool.places_of_running hrun)
  cases h <;> first | exact hall | exact Finset.mem_insert_of_mem hall

/-- A parked task stays parked. -/
theorem Pool.Parked.move (hP : p.Parked x u) (h : Move p w p') :
    p'.Parked x u := by
  obtain ⟨hall, hP⟩ := hP
  refine ⟨?_, ?_⟩
  · cases h <;> first | exact hall | exact Finset.mem_insert_of_mem hall
  rcases hP with hd | ⟨hrun, hready, hwait⟩
  · refine .inl ?_
    cases h <;> first | exact hd | exact .inl hd
  cases h with
  | spawn hnew =>
      refine .inr ⟨hrun, fun hm => ?_, hwait⟩
      rcases Multiset.mem_cons.mp hm with rfl | hm
      · exact hnew hall
      · exact hready hm
  | pick _ htake =>
      have := htake.not_mem hready
      exact .inr ⟨this.1, this.2, hwait⟩
  | @rotate t' o q hrun' htake =>
      have hmem : x ∉ t' ::ₘ p.ready := fun hm => by
        rcases Multiset.mem_cons.mp hm with rfl | hm
        · exact hrun hrun'
        · exact hready hm
      have := htake.not_mem hmem
      exact .inr ⟨this.1, this.2, hwait⟩
  | @block t' u' n q hrun' _ htake =>
      have := (Takes.next htake).not_mem hready
      refine .inr ⟨this.1, this.2, fun v hv hvw => hwait v hv ?_⟩
      unfold Pool.Waits at hvw ⊢
      by_cases he : v = u'
      · subst he
        simp only [Function.update_self, Multiset.mem_cons] at hvw
        rcases hvw with rfl | hvw
        · exact absurd hrun' hrun
        · exact hvw
      · simpa [Function.update_of_ne he] using hvw
  | @finish t' o q hrun' htake =>
      by_cases he : u = t'
      · exact .inl (.inr he)
      · have hmem : x ∉ p.ready + p.waiters t' := fun hm => by
          rcases Multiset.mem_add.mp hm with hm | hm
          · exact hready hm
          · exact hwait t' (fun h => he h.symm) hm
        have := htake.not_mem hmem
        refine .inr ⟨this.1, this.2, fun v hv hvw => hwait v hv ?_⟩
        unfold Pool.Waits at hvw ⊢
        by_cases he' : v = t'
        · simp [he'] at hvw
        · simpa [Function.update_of_ne he'] using hvw
  | drop => exact .inr ⟨by simp, hready, hwait⟩

omit [DecidableEq ι] in
/-- A parked task that runs again finds the other one done. -/
theorem Pool.Parked.done_of_running (hP : p.Parked x u)
    (hrun : p.running = some x) : p.done u := by
  rcases hP.2 with hd | ⟨hne, -, -⟩
  · exact hd
  · exact absurd hrun hne

/-- The pool goes idle only when nobody is ready; `spawn` is the one move
that adds a task. -/
theorem Move.ready_of_idle (h : Move p w p') (hall : p'.all = p.all)
    (hidle : p'.running = none) : p'.ready = 0 := by
  cases h with
  | @spawn t hnew =>
      exact absurd (hall ▸ Finset.mem_insert_self t p.all) hnew
  | pick _ htake | rotate _ htake | finish _ htake =>
      simp only at hidle
      rw [hidle] at htake
      exact htake.ready_eq_zero.1
  | block => cases hidle
  | drop _ hempty => exact hempty

/-- Only the running task starts to wait. -/
theorem Move.waits (h : Move p w p') (hx : p'.Waits x u) :
    p.Waits x u ∨ p.running = some x := by
  unfold Pool.Waits at hx ⊢
  cases h with
  | spawn | pick | rotate | drop => exact .inl hx
  | @block t' u' n q hrun _ _ =>
      by_cases he : u = u'
      · subst he
        simp only [Function.update_self, Multiset.mem_cons] at hx
        rcases hx with rfl | hx
        · exact .inr hrun
        · exact .inl hx
      · exact .inl (by simpa [Function.update_of_ne he] using hx)
  | @finish t' o q _ _ =>
      by_cases he : u = t'
      · simp [he] at hx
      · exact .inl (by simpa [Function.update_of_ne he] using hx)

/-- Nothing undoes a done task. -/
theorem Move.done_mono (h : Move p w p') (hd : p.done x) : p'.done x := by
  cases h <;> first | exact hd | exact .inl hd

/-- A done task is not running. -/
theorem Pool.Inv.not_running_of_done (hI : p.Inv) (hd : p.done x) :
    p.running ≠ some x :=
  fun hrun => Pool.places_of_running hrun (hI.done_nowhere x hd)

end OperatingSystem.Lib
