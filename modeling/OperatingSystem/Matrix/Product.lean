/-
What `matrix.c` prints.

Every interleaving of the threads fills `A` and `B` with the digits that
`rand_r` yields for their seeds, and `C` with their product: a thread of
`multiply` is the only one that stores to its entry, and what it reads of
`A` and `B` was complete when its group was started. The last line is
another matter: `MAX_ROW_SUM` depends on the order of the threads, and all
that can be said is that it lies between the largest row sum and the sum of
all entries (`matrix_program`).

The program always comes to that line, because each group runs down
(`Program.left`), an unfinished thread can always take its next step, and no
`int` of it leaves its range.
-/
import Mathlib.Tactic.Ring
import OperatingSystem.Lib.Ranked
import OperatingSystem.Lib.Tally
import OperatingSystem.Matrix.MaxRowSum
import OperatingSystem.Matrix.Program

namespace OperatingSystem.Matrix

open Lib (Ranked Stuck tally tally_update)

variable {n : Nat} {randR : Nat → Int} {seeds : Fin n → Fin n → TimeSeed}
  {p p' : Program n} {a b c : Entries n} {i j : Fin n} {l : Label n}
  {pc : Fin n × Fin n → MultiplyPc} {x : Nat} {v : Int}

-- =============================================================== the entries

theorem set_apply (M : Entries n) (i j : Fin n) (v : Int) (k : Fin n × Fin n) :
    M.set i j v k.1 k.2 = if k = (i, j) then v else M k.1 k.2 := by
  obtain ⟨k, l⟩ := k
  unfold Entries.set
  by_cases hk : k = i
  · subst hk
    rw [Function.update_self, Function.update_apply]
    simp
  · rw [Function.update_of_ne hk, if_neg (by simp [hk])]

/-- What `assignNumber` is to store to `A`. -/
def first (randR : Nat → Int) (seeds : Fin n → Fin n → TimeSeed) : Entries n :=
  fun i j => digit randR (seeds i j).seed1

/-- And to `B`. -/
def second (randR : Nat → Int) (seeds : Fin n → Fin n → TimeSeed) :
    Entries n :=
  fun i j => digit randR (seeds i j).seed2

/-- All entries are from 0 to `m`. -/
def Within (m : Int) (M : Entries n) : Prop := ∀ i j, 0 ≤ M i j ∧ M i j ≤ m

theorem digit_within (hrand : ∀ seed, 0 ≤ randR seed) (seed : Nat) :
    0 ≤ digit randR seed ∧ digit randR seed ≤ 9 := by
  have hnonneg := hrand seed
  unfold digit
  rw [Int.tmod_eq_emod_of_nonneg hnonneg]
  omega

-- =============================================================== the product

/-- `C[i][j]` once the loop of `multiply` has come to `x`. -/
def upTo (a b : Entries n) (i j : Fin n) (x : Nat) : Int :=
  ∑ k : Fin n, if k.val < x then a i k * b k j else 0

theorem upTo_zero (a b : Entries n) (i j : Fin n) : upTo a b i j 0 = 0 := by
  simp [upTo]

theorem upTo_succ (a b : Entries n) (i j : Fin n) (h : x < n) :
    upTo a b i j (x + 1) = upTo a b i j x + a i ⟨x, h⟩ * b ⟨x, h⟩ j := by
  have hlast : (∑ k : Fin n, if k.val = x then a i k * b k j else 0)
      = a i ⟨x, h⟩ * b ⟨x, h⟩ j := by
    rw [Finset.sum_eq_single ⟨x, h⟩]
    · exact if_pos rfl
    · exact fun k _ hne => if_neg fun heq => hne (Fin.ext heq)
    · exact fun hnot => absurd (Finset.mem_univ _) hnot
  rw [← hlast]
  unfold upTo
  rw [← Finset.sum_add_distrib]
  refine Finset.sum_congr rfl fun k _ => ?_
  by_cases hlt : k.val < x
  · rw [if_pos (by omega), if_pos hlt, if_neg (by omega), add_zero]
  · by_cases heq : k.val = x
    · rw [if_pos (by omega), if_neg hlt, if_pos heq, zero_add]
    · rw [if_neg (by omega), if_neg hlt, if_neg heq, add_zero]

theorem upTo_all (a b : Entries n) (i j : Fin n) :
    upTo a b i j n = product a b i j :=
  Finset.sum_congr rfl fun k _ => if_pos k.isLt

theorem term_within (ha : Within 9 a) (hb : Within 9 b) (i j k : Fin n) :
    0 ≤ a i k * b k j ∧ a i k * b k j ≤ 81 := by
  obtain ⟨ha₀, ha₉⟩ := ha i k
  obtain ⟨hb₀, hb₉⟩ := hb k j
  refine ⟨Int.mul_nonneg ha₀ hb₀, ?_⟩
  show a i k * b k j ≤ 9 * 9
  exact Int.mul_le_mul ha₉ hb₉ hb₀ (by decide)

/-- Partial products of digits: between 0 and 81 for each term. -/
theorem upTo_within (ha : Within 9 a) (hb : Within 9 b) (i j : Fin n)
    (h : x ≤ n) : 0 ≤ upTo a b i j x ∧ upTo a b i j x ≤ 81 * x := by
  induction x with
  | zero => simp [upTo_zero]
  | succ x ih =>
      obtain ⟨hlo, hhi⟩ := ih (by omega)
      obtain ⟨hlo', hhi'⟩ := term_within ha hb i j ⟨x, by omega⟩
      rw [upTo_succ a b i j (by omega)]
      push_cast
      omega

theorem product_within (ha : Within 9 a) (hb : Within 9 b) :
    Within (81 * n) (product a b) := fun i j => by
  rw [← upTo_all]
  exact upTo_within ha hb i j le_rfl

-- =============================================================== the measure

/-- How many steps a thread has left. -/
def AssignPc.left : AssignPc → Nat
  | .storeA => 2
  | .storeB => 1
  | .finished => 0

def MultiplyPc.left (n : Nat) : MultiplyPc → Nat
  | .clear => 2 * n + 2
  | .loop x => 2 * (n - x) + 1
  | .store x _ => 2 * (n - x)
  | .finished => 0

def Phase.left : Phase → Nat
  | .created => 2
  | .summed _ => 1
  | .finished => 0

/-- How many steps the program has left: those of the group, `main`'s, and
those of the groups to come. -/
def Program.left (p : Program n) : Nat :=
  let summing := 2 * n + 1
  let multiplying := n * n * (2 * n + 2) + 1
  match p.stage with
  | .assigning pc =>
      tally (fun _ => AssignPc.left) pc + 1 + multiplying + summing
  | .multiplying pc =>
      tally (fun _ => MultiplyPc.left n) pc + 1 + summing
  | .summing phase => tally (fun _ => Phase.left) phase + 1
  | .ended => 0

-- ============================================================= the invariant

/-- What a thread of `multiply` has done of its entry `c`. -/
def Partial (a b : Entries n) (i j : Fin n) (c : Int) : MultiplyPc → Prop
  | .clear => True
  | .loop x => x ≤ n ∧ c = upTo a b i j x
  | .store x v => x < n ∧ v = upTo a b i j (x + 1)
  | .finished => c = product a b i j

/-- `MAX_ROW_SUM` covers the rows that are done and is no more than they
add up to. -/
structure Bounded (C : Fin n → List Int) (s : State n) : Prop where
  covers : Covers C s
  below : s.maxRowSum ≤ ∑ i, if s.phase i = .finished then (C i).sum else 0

/-- The program is in order, `a` and `b` being what the first group is to
store. -/
inductive Inv (a b : Entries n) (p : Program n) : Prop
  | assigning (pc : Fin n × Fin n → AssignPc)
      (stage : p.stage = .assigning pc)
      (storedA : ∀ k, pc k ≠ .storeA → p.A k.1 k.2 = a k.1 k.2)
      (storedB : ∀ k, pc k = .finished → p.B k.1 k.2 = b k.1 k.2)
      (zero : p.maxRowSum = 0) (shown : p.shown = [])
  | multiplying (pc : Fin n × Fin n → MultiplyPc)
      (stage : p.stage = .multiplying pc) (hA : p.A = a) (hB : p.B = b)
      (entry : ∀ k, Partial a b k.1 k.2 (p.C k.1 k.2) (pc k))
      (zero : p.maxRowSum = 0) (shown : p.shown = [a, b])
  | summing (phase : Fin n → Phase) (stage : p.stage = .summing phase)
      (hA : p.A = a) (hB : p.B = b) (hC : p.C = product a b)
      (bounded : Bounded (rows p.C) ⟨p.maxRowSum, phase⟩)
      (shown : p.shown = [a, b, product a b])
  | ended (stage : p.stage = .ended) (hA : p.A = a) (hB : p.B = b)
      (hC : p.C = product a b)
      (printed : p.printed = some p.maxRowSum)
      (above : largest (rows p.C) ≤ p.maxRowSum)
      (below : p.maxRowSum ≤ total p.C)
      (shown : p.shown = [a, b, product a b])

theorem inv_start (a b : Entries n) : Inv a b (.start n) :=
  .assigning _ rfl (fun _ hne => absurd rfl hne) nofun rfl rfl

-- ============================================================ the first group

/-- One step of `assignNumber`. -/
theorem assign_step {pc : Fin n × Fin n → AssignPc}
    (hA : ∀ k, pc k ≠ .storeA → p.A k.1 k.2 = first randR seeds k.1 k.2)
    (hB : ∀ k, pc k = .finished → p.B k.1 k.2 = second randR seeds k.1 k.2)
    (hzero : p.maxRowSum = 0) (hshown : p.shown = [])
    (hst : assignNumber randR (seeds i j) i j pc p = some p') :
    Inv (first randR seeds) (second randR seeds) p'
      ∧ ∃ q, p'.stage = .assigning (Function.update pc (i, j) q)
        ∧ q.left < (pc (i, j)).left := by
  unfold assignNumber at hst
  split at hst
  case h_1 hpc =>
    obtain rfl := Option.some.inj hst
    refine ⟨.assigning _ rfl ?_ ?_ hzero hshown, _, rfl,
      hpc ▸ Nat.lt_succ_self 1⟩
    · intro k hk
      dsimp only at hk ⊢
      rw [set_apply]
      split
      case isTrue heq =>
        subst heq
        rfl
      case isFalse hne =>
        rw [Function.update_of_ne hne] at hk
        exact hA k hk
    · intro k hk
      dsimp only at hk ⊢
      by_cases heq : k = (i, j)
      · subst heq
        rw [Function.update_self] at hk
        cases hk
      · rw [Function.update_of_ne heq] at hk
        exact hB k hk
  case h_2 hpc =>
    obtain rfl := Option.some.inj hst
    refine ⟨.assigning _ rfl ?_ ?_ hzero hshown, _, rfl,
      hpc ▸ Nat.zero_lt_one⟩
    · intro k hk
      dsimp only at hk ⊢
      by_cases heq : k = (i, j)
      · subst heq
        exact hA (i, j) (by rw [hpc]; decide)
      · rw [Function.update_of_ne heq] at hk
        exact hA k hk
    · intro k hk
      dsimp only at hk ⊢
      rw [set_apply]
      split
      case isTrue heq =>
        subst heq
        rfl
      case isFalse hne =>
        rw [Function.update_of_ne hne] at hk
        exact hB k hk
  case h_3 => cases hst

-- =========================================================== the second group

/-- A thread of `multiply` moves on, its entry being `C`'s afterwards. -/
theorem multiply_move {C : Entries n} {q : MultiplyPc}
    (hentry : ∀ k, Partial a b k.1 k.2 (p.C k.1 k.2) (pc k))
    (hother : ∀ k, k ≠ (i, j) → C k.1 k.2 = p.C k.1 k.2)
    (hown : Partial a b i j (C i j) q) (k : Fin n × Fin n) :
    Partial a b k.1 k.2 (C k.1 k.2) (Function.update pc (i, j) q k) := by
  by_cases heq : k = (i, j)
  · subst heq
    rw [Function.update_self]
    exact hown
  · rw [Function.update_of_ne heq, hother k heq]
    exact hentry k

/-- The loop of `multiply` computes with `int`s. -/
theorem multiply_fits (ha : Within 9 a) (hb : Within 9 b)
    (hsize : 81 * (n : Int) ≤ INT_MAX) (h : x < n) :
    (do let product ← mul (a i ⟨x, h⟩) (b ⟨x, h⟩ j)
        add (upTo a b i j x) product) = some (upTo a b i j (x + 1)) := by
  obtain ⟨hlo, hhi⟩ := term_within ha hb i j ⟨x, h⟩
  obtain ⟨hlo', hhi'⟩ := upTo_within ha hb i j h
  have hmin : INT_MIN ≤ 0 := by decide
  have hmul : mul (a i ⟨x, h⟩) (b ⟨x, h⟩ j)
      = some (a i ⟨x, h⟩ * b ⟨x, h⟩ j) :=
    if_pos ⟨hmin.trans hlo, hhi.trans (by decide)⟩
  rw [hmul, Option.bind_eq_bind, Option.bind_some]
  rw [upTo_succ a b i j h] at hlo' hhi' ⊢
  refine if_pos ⟨hmin.trans hlo', hhi'.trans ?_⟩
  push_cast
  omega

/-- Every step of `multiply` but the last is enabled, and keeps the
entries. -/
theorem multiply_step (ha : Within 9 a) (hb : Within 9 b)
    (hsize : 81 * (n : Int) ≤ INT_MAX) (hA : p.A = a) (hB : p.B = b)
    (hentry : ∀ k, Partial a b k.1 k.2 (p.C k.1 k.2) (pc k))
    (hpc : pc (i, j) ≠ .finished) :
    ∃ C q, multiply i j pc p = some { p with
          C, stage := .multiplying (Function.update pc (i, j) q) }
      ∧ (∀ k, Partial a b k.1 k.2 (C k.1 k.2) (Function.update pc (i, j) q k))
      ∧ q.left n < (pc (i, j)).left n := by
  have hown := hentry (i, j)
  have hset : ∀ v k, k ≠ (i, j) → p.C.set i j v k.1 k.2 = p.C k.1 k.2 :=
    fun v k hne => (set_apply p.C i j v k).trans (if_neg hne)
  have hself : ∀ v, p.C.set i j v i j = v :=
    fun v => (set_apply p.C i j v (i, j)).trans (if_pos rfl)
  unfold multiply
  cases hcase : pc (i, j) with
  | clear =>
      refine ⟨p.C.set i j 0, .loop 0, rfl, multiply_move hentry (hset 0) ?_, ?_⟩
      · rw [hself]
        exact ⟨Nat.zero_le n, (upTo_zero a b i j).symm⟩
      · simp only [MultiplyPc.left]
        omega
  | loop x =>
      rw [hcase] at hown
      obtain ⟨hle, hc⟩ := hown
      dsimp only at hc ⊢
      split
      case isTrue hlt =>
        have hfits := multiply_fits (i := i) (j := j) ha hb hsize hlt
        rw [← hc, ← hA, ← hB] at hfits
        simp only [Option.bind_eq_bind] at hfits ⊢
        obtain ⟨product, hmul, hadd⟩ := Option.bind_eq_some_iff.mp hfits
        rw [hmul, Option.bind_some, hadd, Option.bind_some]
        refine ⟨p.C, .store x _, rfl, multiply_move hentry (fun _ _ => rfl) ?_, ?_⟩
        · rw [hA, hB]
          exact ⟨hlt, rfl⟩
        · simp only [MultiplyPc.left]
          omega
      case isFalse hge =>
        refine ⟨p.C, .finished, rfl, multiply_move hentry (fun _ _ => rfl) ?_, ?_⟩
        · obtain rfl : x = n := by omega
          exact hc.trans (upTo_all a b i j)
        · simp only [MultiplyPc.left]
          omega
  | store x v =>
      rw [hcase] at hown
      obtain ⟨hlt, hv⟩ := hown
      refine ⟨p.C.set i j v, .loop (x + 1), rfl,
        multiply_move hentry (hset v) ?_, ?_⟩
      · rw [hself]
        exact ⟨hlt, hv⟩
      · simp only [MultiplyPc.left]
        omega
  | finished => exact absurd hcase hpc

-- ============================================================ the third group

variable {C : Fin n → List Int} {s s' : State n} {phase : Phase}

/-- One thread moves on: the rows that are done. -/
theorem done_move (C : Fin n → List Int) (f : Fin n → Phase) (i : Fin n)
    (hi : f i ≠ .finished) (phase : Phase) :
    (∑ k, if Function.update f i phase k = .finished then (C k).sum else 0)
      = (∑ k, if f k = .finished then (C k).sum else 0)
        + if phase = .finished then (C i).sum else 0 := by
  rw [← Finset.add_sum_erase Finset.univ _ (Finset.mem_univ i),
    ← Finset.add_sum_erase Finset.univ
      (fun k => if f k = .finished then (C k).sum else 0) (Finset.mem_univ i)]
  have hrest : (∑ k ∈ Finset.univ.erase i,
        if Function.update f i phase k = .finished then (C k).sum else 0)
      = ∑ k ∈ Finset.univ.erase i,
        if f k = .finished then (C k).sum else 0 := by
    refine Finset.sum_congr rfl fun k hk => ?_
    rw [Function.update_of_ne (Finset.ne_of_mem_erase hk)]
  rw [hrest, Function.update_self, if_neg hi]
  omega

theorem done_le (hC : Valid C) (f : Fin n → Phase) :
    (∑ k, if f k = .finished then (C k).sum else 0) ≤ ∑ k, (C k).sum := by
  refine Finset.sum_le_sum fun k _ => ?_
  split
  case isTrue => exact le_rfl
  case isFalse => exact List.sum_nonneg (hC.entries k)

/-- The rows that are not done yet come on top. -/
theorem done_add_le (hC : Valid C) {f : Fin n → Phase} {i : Fin n}
    (hi : f i ≠ .finished) :
    (∑ k, if f k = .finished then (C k).sum else 0) + (C i).sum
      ≤ ∑ k, (C k).sum := by
  have hle := done_le hC (Function.update f i .finished)
  rw [done_move C f i hi, if_pos rfl] at hle
  exact hle

theorem Bounded.read_step (hC : Valid C) (h : Bounded C s)
    (hi : s.phase i = .created) :
    ∃ v phase, step C (.read i) s = some ⟨v, Function.update s.phase i phase⟩
      ∧ Bounded C ⟨v, Function.update s.phase i phase⟩
      ∧ phase.left < (s.phase i).left := by
  obtain ⟨s', hst, hcovers, rfl⟩ := h.covers.read_step hC hi
  refine ⟨_, _, hst, ⟨hcovers, ?_⟩, ?_⟩
  · dsimp only
    rw [done_move C s.phase i (by rw [hi]; decide), if_neg (by simp), add_zero]
    exact h.below
  · rw [hi]
    exact Nat.lt_succ_self 1

theorem Bounded.update_step (hC : Valid C) (hmax : ∑ k, (C k).sum ≤ INT_MAX)
    (h : Bounded C s) {sum : Int} (hi : s.phase i = .summed sum) :
    ∃ v phase, step C (.update i) s = some ⟨v, Function.update s.phase i phase⟩
      ∧ Bounded C ⟨v, Function.update s.phase i phase⟩
      ∧ phase.left < (s.phase i).left := by
  have hne : s.phase i ≠ .finished := by
    rw [hi]
    simp
  have hroom := done_add_le hC hne
  have hbelow := h.below
  obtain ⟨hread, -⟩ := h.covers.read i sum hi
  rcases h.covers.update_step hC hi with ⟨-, hneg, hover⟩ | ⟨s', hst, hcovers, rfl⟩
  · omega
  · refine ⟨_, _, hst, ⟨hcovers, ?_⟩, ?_⟩
    · dsimp only
      rw [done_move C s.phase i hne, if_pos rfl]
      have hnonneg : 0 ≤ (C i).sum := List.sum_nonneg (hC.entries i)
      split
      case isTrue => omega
      case isFalse => omega
    · rw [hi]
      exact Nat.zero_lt_one

/-- Whose step it is decides which step it is. -/
theorem enabled_cases {a : Action n} (hst : step C a s = some s') :
    (∃ i, a = .read i ∧ s.phase i = .created)
      ∨ ∃ i sum, a = .update i ∧ s.phase i = .summed sum := by
  unfold step at hst
  split at hst
  case h_1 i hi => exact .inl ⟨i, rfl, hi⟩
  case h_2 i sum hi => exact .inr ⟨i, sum, rfl, hi⟩
  case h_3 => cases hst

-- =========================================================== the whole program

theorem rows_sum (M : Entries n) (i : Fin n) : (rows M i).sum = ∑ j, M i j :=
  List.sum_ofFn

theorem total_rows (M : Entries n) : total M = ∑ i, (rows M i).sum :=
  Finset.sum_congr rfl fun i _ => (rows_sum M i).symm

theorem total_le {m : Int} {M : Entries n} (h : Within m M) :
    total M ≤ n * (n * m) := by
  have hrow : ∀ i, ∑ j, M i j ≤ n * m := fun i => by
    have := Finset.sum_le_card_nsmul Finset.univ (fun j => M i j) m
      fun j _ => (h i j).2
    simpa using this
  have := Finset.sum_le_card_nsmul Finset.univ (fun i => ∑ j, M i j) (n * m)
    fun i _ => hrow i
  simpa [total] using this

theorem row_le_total {m : Int} {M : Entries n} (h : Within m M) (i : Fin n) :
    (rows M i).sum ≤ total M := by
  rw [total_rows]
  refine Finset.single_le_sum (f := fun i => (rows M i).sum) (fun k _ => ?_)
    (Finset.mem_univ i)
  rw [rows_sum]
  exact Finset.sum_nonneg fun j _ => (h k j).1

/-- A group moves on when one of its threads does. -/
theorem tally_drop {ι κ : Type} [Fintype ι] [DecidableEq ι] {w : κ → Nat}
    {f : ι → κ} {i : ι} {x : κ} (h : w x < w (f i)) :
    tally (fun _ => w) (Function.update f i x) < tally (fun _ => w) f := by
  have hmove := tally_update (fun _ => w) f i x
  omega

section Program

variable (hrand : ∀ seed, 0 ≤ randR seed) (hsize : 81 * (n : Int) ^ 3 ≤ INT_MAX)
include hrand

variable (seeds) in
theorem within_first : Within 9 (first randR seeds) :=
  fun i j => digit_within hrand (seeds i j).seed1

variable (seeds) in
theorem within_second : Within 9 (second randR seeds) :=
  fun i j => digit_within hrand (seeds i j).seed2

include hsize

variable (seeds) in
/-- The product is a matrix that `maxRowSum` can handle, in any order. -/
theorem valid_product : Valid (rows (product (first randR seeds)
      (second randR seeds)))
    ∧ total (product (first randR seeds) (second randR seeds)) ≤ INT_MAX := by
  have hwithin := product_within (within_first seeds hrand)
    (within_second seeds hrand)
  have htotal : total (product (first randR seeds) (second randR seeds))
      ≤ INT_MAX := by
    refine (total_le hwithin).trans (le_trans (le_of_eq ?_) hsize)
    ring
  refine ⟨⟨fun i x hx => ?_, fun i => (row_le_total hwithin i).trans htotal⟩,
    htotal⟩
  obtain ⟨j, rfl⟩ := List.mem_ofFn.mp hx
  exact (hwithin i j).1

omit hrand in
theorem small_rows : 81 * (n : Int) ≤ INT_MAX := by
  refine le_trans ?_ hsize
  have hcube : n ≤ n ^ 3 := Nat.le_self_pow (by decide) n
  have : (n : Int) ≤ (n : Int) ^ 3 := by exact_mod_cast hcube
  omega

/-- `main` joins a group that is done. -/
theorem Inv.join (hI : Inv (first randR seeds) (second randR seeds) p)
    (hst : joinAll p = some p') :
    Inv (first randR seeds) (second randR seeds) p' ∧ p'.left < p.left := by
  obtain ⟨hvalid, htotal⟩ := valid_product seeds hrand hsize
  cases hI with
  | assigning pc stage storedA storedB zero shown =>
      simp only [joinAll, stage] at hst
      split at hst
      case isFalse => cases hst
      case isTrue hall =>
        obtain rfl := Option.some.inj hst
        have hA : p.A = first randR seeds := by
          funext i j
          exact storedA (i, j) (by rw [hall]; decide)
        have hB : p.B = second randR seeds := by
          funext i j
          exact storedB (i, j) (hall _)
        refine ⟨.multiplying _ rfl hA hB (fun _ => trivial) zero ?_, ?_⟩
        · dsimp only
          rw [shown, hA, hB]
          rfl
        · have hcount : tally (fun _ => MultiplyPc.left n)
              (fun _ : Fin n × Fin n => MultiplyPc.clear)
              = n * n * (2 * n + 2) := by
            simp [tally, MultiplyPc.left]
          simp only [Program.left, stage, hcount]
          omega
  | multiplying pc stage hA hB entry zero shown =>
      simp only [joinAll, stage] at hst
      split at hst
      case isFalse => cases hst
      case isTrue hall =>
        obtain rfl := Option.some.inj hst
        have hC : p.C = product (first randR seeds) (second randR seeds) := by
          funext i j
          have hdone := entry (i, j)
          rwa [hall] at hdone
        refine ⟨.summing _ rfl hA hB hC ⟨?_, ?_⟩ ?_, ?_⟩
        · rw [zero]
          exact covers_start
        · dsimp only
          rw [zero]
          exact (Finset.sum_eq_zero fun i _ => if_neg (by decide)).ge
        · dsimp only
          rw [shown, hC]
          rfl
        · have hcount : tally (fun _ => Phase.left)
              (fun _ : Fin n => Phase.created) = n * 2 := by
            simp [tally, Phase.left]
          simp only [Program.left, stage, hcount]
          omega
  | summing phase stage hA hB hC bounded shown =>
      simp only [joinAll, stage] at hst
      split at hst
      case isFalse => cases hst
      case isTrue hall =>
        obtain rfl := Option.some.inj hst
        refine ⟨.ended rfl hA hB hC rfl ?_ ?_ shown, ?_⟩
        · exact largest_le bounded.covers.nonneg fun i =>
            bounded.covers.done i (hall i)
        · refine bounded.below.trans (le_of_eq ?_)
          rw [total_rows]
          exact Finset.sum_congr rfl fun i _ => if_pos (hall i)
        · simp only [Program.left, stage]
          omega
  | ended stage =>
      simp only [joinAll, stage] at hst
      cases hst

/-- Every step keeps the program in order and brings it nearer to its
end. -/
theorem Inv.step (hI : Inv (first randR seeds) (second randR seeds) p)
    (hst : mainStep randR seeds l p = some p') :
    Inv (first randR seeds) (second randR seeds) p' ∧ p'.left < p.left := by
  obtain ⟨hvalid, htotal⟩ := valid_product seeds hrand hsize
  unfold mainStep at hst
  split at hst
  case h_1 i j pc hstage =>
    cases hI with
    | assigning pc' stage storedA storedB zero shown =>
        obtain rfl := Stage.assigning.inj (stage.symm.trans hstage)
        obtain ⟨hI', q, hstage', hlt⟩ := assign_step storedA storedB zero shown hst
        have hdrop := tally_drop (w := AssignPc.left) hlt
        refine ⟨hI', ?_⟩
        simp only [Program.left, hstage, hstage']
        omega
    | multiplying _ stage | summing _ stage | ended stage =>
        rw [stage] at hstage
        cases hstage
  case h_2 i j pc hstage =>
    cases hI with
    | multiplying pc' stage hA hB entry zero shown =>
        obtain rfl := Stage.multiplying.inj (stage.symm.trans hstage)
        have hpc : pc' (i, j) ≠ .finished := by
          intro hfin
          simp only [multiply, hfin] at hst
          cases hst
        obtain ⟨C, q, hst', hentry, hlt⟩ := multiply_step (within_first _ hrand)
          (within_second _ hrand) (small_rows hsize) hA hB entry hpc
        obtain rfl := Option.some.inj (hst.symm.trans hst')
        have hdrop := tally_drop (w := MultiplyPc.left n) hlt
        refine ⟨.multiplying _ rfl hA hB hentry zero shown, ?_⟩
        simp only [Program.left, hstage]
        omega
    | assigning _ stage | summing _ stage | ended stage =>
        rw [stage] at hstage
        cases hstage
  case h_3 a phase hstage =>
    cases hI with
    | summing phase' stage hA hB hC bounded shown =>
        obtain rfl := Stage.summing.inj (stage.symm.trans hstage)
        obtain ⟨s', hrow, rfl⟩ := Option.map_eq_some_iff.mp hst
        have hvalid' : Valid (rows p.C) := hC ▸ hvalid
        have hmax : ∑ k, (rows p.C k).sum ≤ INT_MAX := by
          rw [← total_rows, hC]
          exact htotal
        obtain ⟨v, q, i, hst', hb, hlt⟩ : ∃ v q i, Matrix.step (rows p.C) a
              ⟨p.maxRowSum, phase'⟩ = some ⟨v, Function.update phase' i q⟩
            ∧ Bounded (rows p.C) ⟨v, Function.update phase' i q⟩
            ∧ q.left < (phase' i).left := by
          rcases enabled_cases hrow with ⟨i, rfl, hi⟩ | ⟨i, sum, rfl, hi⟩
          · obtain ⟨v, q, h⟩ := bounded.read_step hvalid' hi
            exact ⟨v, q, i, h⟩
          · obtain ⟨v, q, h⟩ := bounded.update_step hvalid' hmax hi
            exact ⟨v, q, i, h⟩
        obtain rfl := Option.some.inj (hrow.symm.trans hst')
        have hdrop := tally_drop (w := Phase.left) hlt
        refine ⟨.summing _ rfl hA hB hC hb shown, ?_⟩
        simp only [Program.left, hstage]
        omega
    | assigning _ stage | multiplying _ stage | ended stage =>
        rw [stage] at hstage
        cases hstage
  case h_4 => exact hI.join hrand hsize hst
  case h_5 => cases hst

/-- A program that is not over has a step left. -/
theorem Inv.progress (hI : Inv (first randR seeds) (second randR seeds) p)
    (hstuck : ∀ l, mainStep randR seeds l p = none) : p.stage = .ended := by
  obtain ⟨hvalid, htotal⟩ := valid_product seeds hrand hsize
  have hjoin := hstuck .join
  cases hI with
  | assigning pc stage storedA storedB zero shown =>
      exfalso
      have hall : ¬∀ k, pc k = .finished := fun hall => by
        simp only [mainStep, joinAll, stage, if_pos hall] at hjoin
        cases hjoin
      obtain ⟨⟨i, j⟩, hk⟩ := not_forall.mp hall
      have hthread := hstuck (.assign i j)
      simp only [mainStep, stage, assignNumber] at hthread
      split at hthread
      case h_1 => cases hthread
      case h_2 => cases hthread
      case h_3 hfin => exact hk hfin
  | multiplying pc stage hA hB entry zero shown =>
      exfalso
      have hall : ¬∀ k, pc k = .finished := fun hall => by
        simp only [mainStep, joinAll, stage, if_pos hall] at hjoin
        cases hjoin
      obtain ⟨⟨i, j⟩, hk⟩ := not_forall.mp hall
      have hthread := hstuck (.multiply i j)
      simp only [mainStep, stage] at hthread
      obtain ⟨C, q, hst, -⟩ := multiply_step (within_first _ hrand)
        (within_second _ hrand) (small_rows hsize) hA hB entry hk
      rw [hst] at hthread
      cases hthread
  | summing phase stage hA hB hC bounded shown =>
      exfalso
      have hall : ¬∀ i, phase i = .finished := fun hall => by
        simp only [mainStep, joinAll, stage, if_pos hall] at hjoin
        cases hjoin
      obtain ⟨i, hi⟩ := not_forall.mp hall
      have hvalid' : Valid (rows p.C) := hC ▸ hvalid
      have hmax : ∑ k, (rows p.C k).sum ≤ INT_MAX := by
        rw [← total_rows, hC]
        exact htotal
      obtain ⟨a, s', hst⟩ : ∃ a s', Matrix.step (rows p.C) a
          ⟨p.maxRowSum, phase⟩ = some s' := by
        cases hcase : phase i with
        | created =>
            obtain ⟨v, q, hst, -⟩ := bounded.read_step hvalid' hcase
            exact ⟨_, _, hst⟩
        | summed sum =>
            obtain ⟨v, q, hst, -⟩ := bounded.update_step hvalid' hmax hcase
            exact ⟨_, _, hst⟩
        | finished => exact absurd hcase hi
      have hthread := hstuck (.sum a)
      simp only [mainStep, stage, maxRowSum, hst] at hthread
      cases hthread
  | ended stage => exact stage

variable (seeds) in
theorem ranked : Ranked (program randR seeds)
    (Inv (first randR seeds) (second randR seeds)) Program.left where
  keep _ _ _ hI hst := (hI.step hrand hsize hst).1
  drops _ _ _ hI hst := (hI.step hrand hsize hst).2

/-- What `matrix.c` prints: `A`, `B` and their product, and then a number
between the largest row sum and the sum of all entries. -/
structure Prints (a b : Entries n) (p : Program n) : Prop where
  stage : p.stage = .ended
  shown : p.shown = [a, b, product a b]
  last : ∃ m, p.printed = some m ∧ largest (rows (product a b)) ≤ m
    ∧ m ≤ total (product a b)

omit hrand hsize in
theorem Inv.prints (hI : Inv a b p) (hend : p.stage = .ended) : Prints a b p := by
  cases hI with
  | ended stage hA hB hC printed above below shown =>
      exact ⟨stage, shown, p.maxRowSum, printed, hC ▸ above, hC ▸ below⟩
  | assigning _ stage | multiplying _ stage | summing _ stage =>
      rw [stage] at hend
      cases hend

/-- In every interleaving of its threads `matrix.c` comes to its last line,
no run can stop before it, and what it has printed then is right but for
`MAX_ROW_SUM`, which lies between the largest row sum and the sum of all
entries. -/
theorem matrix_program {labels : List (Label n)}
    (hrun : Lib.run (program randR seeds) labels (.start n) = some p) :
    labels.length ≤ (Program.start n).left
      ∧ (Stuck (program randR seeds) p →
        Prints (first randR seeds) (second randR seeds) p)
      ∧ ∃ rest p', Lib.run (program randR seeds) rest p = some p'
        ∧ Prints (first randR seeds) (second randR seeds) p' := by
  have hranked := ranked seeds hrand hsize
  have hstart := inv_start (first randR seeds) (second randR seeds)
  have hI := hranked.run_keeps hstart hrun
  refine ⟨?_, fun hstuck => hI.prints (hI.progress hrand hsize hstuck), ?_⟩
  · have hle := hranked.length_le labels hstart hrun
    omega
  · obtain ⟨rest, p', hrest, hI', hend⟩ := hranked.ends hI
    exact ⟨rest, p', hrest, hI'.prints (hI'.progress hrand hsize hend)⟩

end Program

/-- The theorem for the seven rows that `matrix.c` has, with a generator that
yields the seed itself, after the first step. -/
theorem matrix_program_seven : ∃ p : Program 7,
    Lib.run (program (fun seed => (seed : Int)) fun _ _ => ⟨12, 15⟩)
        [.assign 0 0] (.start 7) = some p
      ∧ ∃ rest p', Lib.run (program (fun seed => (seed : Int))
          fun _ _ => ⟨12, 15⟩) rest p = some p'
        ∧ Prints (fun _ _ => 2) (fun _ _ => 5) p' := by
  have hrun : Lib.run (program (fun seed => (seed : Int)) fun _ _ => ⟨12, 15⟩)
      [.assign 0 0] (.start 7) = some _ := rfl
  obtain ⟨rest, p', hrest, hprints⟩ :=
    (matrix_program (fun seed => Int.natCast_nonneg seed) (by decide) hrun).2.2
  have hfirst : first (n := 7) (fun seed => (seed : Int))
      (fun _ _ => ⟨12, 15⟩) = fun _ _ => 2 := by
    funext i j
    show digit _ 12 = 2
    decide
  have hsecond : second (n := 7) (fun seed => (seed : Int))
      (fun _ _ => ⟨12, 15⟩) = fun _ _ => 5 := by
    funext i j
    show digit _ 15 = 5
    decide
  rw [← hfirst, ← hsecond]
  exact ⟨_, hrun, rest, p', hrest, hprints⟩

end OperatingSystem.Matrix
