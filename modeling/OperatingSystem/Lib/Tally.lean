/-
Weighing a finite family, program-independent: how a sum of per-index
weights moves when one index moves, and what a small sum says about the
indices. This is the counting half of every argument about an unbounded
number of processes — a semaphore's missing permits are the sum of what
the processes hold, a shared counter is the sum of what they added.
-/
import Mathlib.Algebra.BigOperators.Fin
import Mathlib.Algebra.Order.BigOperators.Group.Finset

namespace OperatingSystem.Lib

variable {ι κ : Type*} [Fintype ι]

/-- The total weight of the family `f`, index `i` at `x` weighing
`w i x`. -/
def tally (w : ι → κ → Nat) (f : ι → κ) : Nat := ∑ i, w i (f i)

/-- Moving one index trades its old weight for its new one. -/
theorem tally_update [DecidableEq ι] (w : ι → κ → Nat) (f : ι → κ) (i : ι) (x : κ) :
    tally w (Function.update f i x) + w i (f i) = tally w f + w i x := by
  unfold tally
  rw [← Finset.add_sum_erase Finset.univ _ (Finset.mem_univ i),
    ← Finset.add_sum_erase Finset.univ (fun j => w j (f j))
      (Finset.mem_univ i)]
  have hrest : ∑ j ∈ Finset.univ.erase i, w j (Function.update f i x j)
      = ∑ j ∈ Finset.univ.erase i, w j (f j) := by
    refine Finset.sum_congr rfl fun j hj => ?_
    rw [Function.update_of_ne (Finset.ne_of_mem_erase hj)]
  rw [hrest, Function.update_self]
  omega

/-- One index weighs at most the whole. -/
theorem weight_le_tally (w : ι → κ → Nat) (f : ι → κ) (i : ι) :
    w i (f i) ≤ tally w f :=
  Finset.single_le_sum (f := fun j => w j (f j)) (fun _ _ => Nat.zero_le _)
    (Finset.mem_univ i)

/-- Two distinct indices together weigh at most the whole. -/
theorem weight_add_le_tally [DecidableEq ι] (w : ι → κ → Nat) (f : ι → κ) {i j : ι}
    (hij : i ≠ j) : w i (f i) + w j (f j) ≤ tally w f := by
  have hpair := Finset.sum_le_sum_of_subset (f := fun k => w k (f k))
    (Finset.subset_univ {i, j})
  rwa [Finset.sum_pair hij] at hpair

/-- A positive total has a contributor. -/
theorem exists_of_tally_pos {w : ι → κ → Nat} {f : ι → κ}
    (h : 0 < tally w f) : ∃ i, 0 < w i (f i) := by
  by_contra hnone
  push Not at hnone
  have hzero : tally w f = 0 :=
    Finset.sum_eq_zero fun i _ => Nat.le_zero.mp (hnone i)
  omega

/-- A total above one index's own weight has another contributor. -/
theorem exists_other_of_tally [DecidableEq ι] {w : ι → κ → Nat} {f : ι → κ} {i : ι}
    (h : w i (f i) < tally w f) : ∃ j, j ≠ i ∧ 0 < w j (f j) := by
  by_contra hnone
  push Not at hnone
  have hrest : ∑ j ∈ Finset.univ.erase i, w j (f j) = 0 :=
    Finset.sum_eq_zero fun j hj =>
      Nat.le_zero.mp (hnone j (Finset.ne_of_mem_erase hj))
  have hsum : tally w f = w i (f i) := by
    unfold tally
    rw [← Finset.add_sum_erase Finset.univ (fun j => w j (f j))
      (Finset.mem_univ i), hrest]
    omega
  omega

/-- Nobody weighs anything, so the whole weighs nothing. -/
theorem tally_eq_zero {w : ι → κ → Nat} {f : ι → κ}
    (h : ∀ i, w i (f i) = 0) : tally w f = 0 :=
  Finset.sum_eq_zero fun i _ => h i

end OperatingSystem.Lib
