/-
A fixed number of slots reused in turn, program-independent: entry `n` of a
history goes into slot `n % k`, so the slots always hold the last `k`
entries.

`Cyclic.push` is the step lemma of any program that writes this way, and
`Cyclic.sum_eq` what it gets from it: with enough entries the sum over the
slots is the sum of the last `k` entries, whatever slot the latest is in.
-/
import Mathlib.Algebra.BigOperators.Fin
import Mathlib.Algebra.BigOperators.Intervals
import Mathlib.Order.Interval.Finset.Nat

namespace OperatingSystem.Lib

variable {α : Type*} {k : Nat} [NeZero k] {slots : Fin k → α} {l : List α}

/-- Each of the last `k` entries of `l` is in its slot. -/
def Cyclic (slots : Fin k → α) (l : List α) : Prop :=
  ∀ i (h : i < l.length), l.length ≤ i + k → slots (Fin.ofNat k i) = l[i]

theorem cyclic_nil (slots : Fin k → α) : Cyclic slots [] :=
  fun _ h => absurd h (Nat.not_lt_zero _)

/-- The next entry goes into the slot of its number. -/
theorem Cyclic.push (h : Cyclic slots l) (x : α) :
    Cyclic (Function.update slots (Fin.ofNat k l.length) x) (l ++ [x]) := by
  intro i hi hlast
  simp only [List.length_append, List.length_singleton] at hi hlast
  rcases Nat.lt_succ_iff_lt_or_eq.mp hi with hlt | rfl
  · -- two numbers less than `k` apart have different slots
    have hne : Fin.ofNat k i ≠ Fin.ofNat k l.length := by
      intro heq
      have hmod : i % k = l.length % k := by simpa [Fin.ext_iff] using heq
      have hsub := Nat.sub_mod_eq_zero_of_mod_eq hmod.symm
      rw [Nat.mod_eq_of_lt (by omega)] at hsub
      omega
    rw [Function.update_of_ne hne, h i hlt (by omega),
      List.getElem_append_left hlt]
  · rw [Function.update_self, List.getElem_append_right (Nat.le_refl _)]
    simp

/-- Every slot holds one of the entries once there are `k`. -/
theorem Cyclic.mem (h : Cyclic slots l) (hlen : k ≤ l.length) (j : Fin k) :
    slots j ∈ l := by
  -- the last number below `l.length` with slot `j`
  have hmem : j.val ∈ (Finset.Ico (l.length - k) (l.length - k + k)).image
      (· % k) := by
    rw [Nat.image_Ico_mod]
    exact Finset.mem_range.mpr j.isLt
  obtain ⟨i, hi, hj⟩ := Finset.mem_image.mp hmem
  obtain ⟨hlo, hhi⟩ := Finset.mem_Ico.mp hi
  have hslot : Fin.ofNat k i = j := Fin.ext hj
  have hlt : i < l.length := by omega
  rw [← hslot, h i hlt (by omega)]
  exact List.getElem_mem hlt

/-- The sum over the slots is the sum of the last `k` entries. -/
theorem Cyclic.sum_eq [AddCommMonoid α] (h : Cyclic slots l)
    (hlen : k ≤ l.length) : ∑ j, slots j = (l.drop (l.length - k)).sum := by
  have hcount := List.length_drop (i := l.length - k) (l := l)
  have hdrop : k = (l.drop (l.length - k)).length := by omega
  have hlast : ∀ m, m = (l.drop (l.length - k)).length →
      ∑ i ∈ Finset.range m, slots (Fin.ofNat k (l.length - k + i))
        = (l.drop (l.length - k)).sum := by
    rintro m rfl
    rw [← Fin.sum_univ_getElem, Finset.sum_range]
    refine Finset.sum_congr rfl fun i _ => ?_
    have hi := i.isLt
    rw [List.getElem_drop]
    exact h _ (by omega) (by omega)
  calc ∑ j, slots j
      = ∑ j ∈ Finset.range k, slots (Fin.ofNat k j) := by
        rw [Finset.sum_range]
        simp
    _ = ∑ i ∈ Finset.Ico (l.length - k) (l.length - k + k),
          slots (Fin.ofNat k i) := by
        rw [← Nat.image_Ico_mod (l.length - k) k,
          Finset.sum_image (Nat.mod_injOn_Ico (l.length - k) k)]
        refine Finset.sum_congr rfl fun i _ => ?_
        simp [Fin.ofNat]
    _ = ∑ i ∈ Finset.range k, slots (Fin.ofNat k (l.length - k + i)) := by
        rw [Finset.sum_Ico_eq_sum_range]
        simp
    _ = (l.drop (l.length - k)).sum := hlast k hdrop

end OperatingSystem.Lib
