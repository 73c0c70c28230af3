/-
How far the order of the threads moves `MAX_ROW_SUM`.

For every matrix both ends of the range are met. If each thread of
`maxRowSum` is done before the next one starts, the value is the largest row
sum. If all of them read `MAX_ROW_SUM` before the first one updates it, each
adds its whole row, and the value is the sum of all entries
(`range_is_met`).
-/
import Mathlib.Algebra.BigOperators.Fin
import Mathlib.Data.List.FinRange
import OperatingSystem.Matrix.MaxRowSum

namespace OperatingSystem.Matrix

variable {n : Nat} {C : Fin n → List Int} {s s' : State n} {i : Fin n}

-- ======================================================== one after the other

/-- Both steps of the threads of `L`, thread after thread. -/
def inTurn (L : List (Fin n)) : List (Action n) :=
  L.flatMap fun i => [.read i, .update i]

/-- A thread that reads what it updates leaves no more than the larger of
the value and its row. -/
theorem run_pair (hC : Valid C) (h : Covers C s) (hi : s.phase i = .created)
    (hle : s.maxRowSum ≤ largest C) :
    ∃ s', Lib.run (threads C) [.read i, .update i] s = some s' ∧ Covers C s'
      ∧ s'.maxRowSum ≤ largest C ∧ s'.phase i = .finished
      ∧ ∀ k, k ≠ i → s'.phase k = s.phase k := by
  obtain ⟨s₁, hread, h₁, rfl⟩ := h.read_step hC hi
  have hsummed : (Function.update s.phase i
      (.summed (s.maxRowSum - (C i).sum))) i
      = .summed (s.maxRowSum - (C i).sum) := Function.update_self _ _ _
  have hrow := le_largest C i
  have hfits : largest C ≤ INT_MAX := largest_le (by decide) hC.sums
  rcases h₁.update_step hC hsummed with ⟨-, -, hover⟩ | ⟨s₂, hupdate, h₂, rfl⟩
  · dsimp only at hover
    omega
  · refine ⟨_, ?_, h₂, ?_, Function.update_self _ _ _, fun k hk => ?_⟩
    · simp only [Lib.run, show (threads C).step = step C from rfl, hread,
        hupdate]
    · dsimp only
      split
      case isTrue => exact hle
      case isFalse => omega
    · exact (Function.update_of_ne hk _ _).trans (Function.update_of_ne hk _ _)

theorem run_inTurn (hC : Valid C) : ∀ (L : List (Fin n)), L.Nodup →
    ∀ {s : State n}, Covers C s → s.maxRowSum ≤ largest C →
      (∀ i ∈ L, s.phase i = .created) →
      ∃ s', Lib.run (threads C) (inTurn L) s = some s' ∧ Covers C s'
        ∧ s'.maxRowSum ≤ largest C ∧ (∀ i ∈ L, s'.phase i = .finished)
        ∧ ∀ i ∉ L, s'.phase i = s.phase i
  | [], _, s, h, hle, _ => ⟨s, rfl, h, hle, nofun, fun _ _ => rfl⟩
  | i :: L, hnodup, s, h, hle, hL => by
      obtain ⟨hfresh, hnodup⟩ := List.nodup_cons.mp hnodup
      obtain ⟨s₁, hrun, h₁, hle₁, hi, hothers⟩ :=
        run_pair hC h (hL i List.mem_cons_self) hle
      obtain ⟨s', hrest, h', hle', hdone, hkept⟩ := run_inTurn hC L hnodup h₁
        hle₁ fun k hk => (hothers k fun heq => hfresh (heq ▸ hk)).trans
          (hL k (List.mem_cons_of_mem i hk))
      refine ⟨s', Lib.run_append _ hrun hrest, h', hle', fun k hk => ?_,
        fun k hk => ?_⟩
      · rcases List.mem_cons.mp hk with rfl | hk
        · exact (hkept k hfresh).trans hi
        · exact hdone k hk
      · obtain ⟨hne, hk⟩ := not_or.mp (mt List.mem_cons.mpr hk)
        exact (hkept k hk).trans (hothers k hne)

-- ========================================================== all read, then all

/-- The threads of `L` read. -/
theorem run_reads (hC : Valid C) : ∀ (L : List (Fin n)), L.Nodup →
    ∀ {s : State n}, Covers C s → (∀ i ∈ L, s.phase i = .created) →
      ∃ s', Lib.run (threads C) (L.map .read) s = some s' ∧ Covers C s'
        ∧ s'.maxRowSum = s.maxRowSum
        ∧ (∀ i ∈ L, s'.phase i = .summed (s.maxRowSum - (C i).sum))
        ∧ ∀ i ∉ L, s'.phase i = s.phase i
  | [], _, s, h, _ => ⟨s, rfl, h, rfl, nofun, fun _ _ => rfl⟩
  | i :: L, hnodup, s, h, hL => by
      obtain ⟨hfresh, hnodup⟩ := List.nodup_cons.mp hnodup
      obtain ⟨s₁, hread, h₁, rfl⟩ := h.read_step hC (hL i List.mem_cons_self)
      have hothers : ∀ k ∈ L, k ≠ i := fun k hk heq => hfresh (heq ▸ hk)
      obtain ⟨s', hrest, h', hmax, hsummed, hkept⟩ := run_reads hC L hnodup h₁
        fun k hk => (Function.update_of_ne (hothers k hk) _ _).trans
          (hL k (List.mem_cons_of_mem i hk))
      refine ⟨s', ?_, h', hmax, fun k hk => ?_, fun k hk => ?_⟩
      · simp only [List.map_cons, Lib.run,
          show (threads C).step = step C from rfl, hread]
        exact hrest
      · rcases List.mem_cons.mp hk with rfl | hk
        · exact (hkept k hfresh).trans (Function.update_self _ _ _)
        · exact hsummed k hk
      · obtain ⟨hne, hk⟩ := not_or.mp (mt List.mem_cons.mpr hk)
        exact (hkept k hk).trans (Function.update_of_ne hne _ _)

/-- The threads of `L` update, each of which has read 0: each adds its whole
row. -/
theorem run_updates (hC : Valid C) : ∀ (L : List (Fin n)), L.Nodup →
    ∀ {s : State n}, Covers C s →
      (∀ i ∈ L, s.phase i = .summed (0 - (C i).sum)) →
      s.maxRowSum + (L.map fun i => (C i).sum).sum ≤ INT_MAX →
      ∃ s', Lib.run (threads C) (L.map .update) s = some s'
        ∧ s'.maxRowSum = s.maxRowSum + (L.map fun i => (C i).sum).sum
  | [], _, s, _, _, _ => ⟨s, rfl, (add_zero _).symm⟩
  | i :: L, hnodup, s, h, hL, hfits => by
      obtain ⟨hfresh, hnodup⟩ := List.nodup_cons.mp hnodup
      rw [List.map_cons, List.sum_cons] at hfits
      have hrow : 0 ≤ (C i).sum := List.sum_nonneg (hC.entries i)
      have hrest : 0 ≤ (L.map fun i => (C i).sum).sum := by
        refine List.sum_nonneg fun x hx => ?_
        obtain ⟨k, -, rfl⟩ := List.mem_map.mp hx
        exact List.sum_nonneg (hC.entries k)
      rcases h.update_step hC (hL i List.mem_cons_self) with
        ⟨-, -, hover⟩ | ⟨s₁, hupdate, h₁, rfl⟩
      · omega
      have hv : (if 0 ≤ 0 - (C i).sum then s.maxRowSum
          else s.maxRowSum - (0 - (C i).sum)) = s.maxRowSum + (C i).sum := by
        split
        case isTrue => omega
        case isFalse => omega
      have hothers : ∀ k ∈ L, k ≠ i := fun k hk heq => hfresh (heq ▸ hk)
      obtain ⟨s', hrun, hmax⟩ := run_updates hC L hnodup h₁
        (fun k hk => (Function.update_of_ne (hothers k hk) _ _).trans
          (hL k (List.mem_cons_of_mem i hk)))
        (by dsimp only; omega)
      refine ⟨s', ?_, ?_⟩
      · simp only [List.map_cons, Lib.run,
          show (threads C).step = step C from rfl, hupdate]
        exact hrun
      · rw [hmax, List.map_cons, List.sum_cons]
        dsimp only
        omega

-- ============================================================== the schedules

/-- Thread `i`'s part of a list with one step of each thread. -/
theorem filter_one (f : Fin n → Action n) (hf : ∀ k, (f k).thread = k)
    (i : Fin n) :
    ((List.finRange n).map f).filter (fun a => a.thread = i) = [f i] := by
  rw [List.filter_map]
  have hcount : (List.finRange n).filter
      ((fun a : Action n => decide (a.thread = i)) ∘ f) = [i] := by
    simp only [Function.comp_def, hf]
    rw [List.filter_eq, List.count_eq_one_of_mem (List.nodup_finRange n)
      (List.mem_finRange i)]
    rfl
  rw [hcount]
  rfl

theorem interleaving_reads_updates :
    Interleaving ((List.finRange n).map Action.read
      ++ (List.finRange n).map Action.update) := by
  intro i
  rw [List.filter_append, filter_one _ fun _ => rfl, filter_one _ fun _ => rfl]
  rfl

theorem interleaving_inTurn : Interleaving (inTurn (List.finRange n)) := by
  intro i
  have hpart : ∀ L : List (Fin n),
      (inTurn L).filter (fun a => a.thread = i)
        = (L.filter fun k => k = i).flatMap fun k => [.read k, .update k] := by
    intro L
    induction L with
    | nil => rfl
    | cons k L ih =>
        have hcons : inTurn (k :: L) = [.read k, .update k] ++ inTurn L := rfl
        rw [hcons, List.filter_append, ih]
        by_cases hk : k = i
        · simp [hk, Action.thread]
        · simp [hk, Action.thread]
  rw [hpart, List.filter_eq, List.count_eq_one_of_mem (List.nodup_finRange n)
    (List.mem_finRange i)]
  rfl

/-- For every matrix there is an interleaving that ends with the largest row
sum, and, if that is an `int`, one that ends with the sum of all entries. -/
theorem range_is_met (hC : Valid C) (hfits : ∑ i, (C i).sum ≤ INT_MAX) :
    (∃ acts s, Interleaving acts ∧ Lib.run (threads C) acts (.start n) = some s
        ∧ s.maxRowSum = largest C)
      ∧ ∃ acts s, Interleaving acts
        ∧ Lib.run (threads C) acts (.start n) = some s
        ∧ s.maxRowSum = ∑ i, (C i).sum := by
  constructor
  · obtain ⟨s, hrun, h, hle, hdone, -⟩ := run_inTurn hC (List.finRange n)
      (List.nodup_finRange n) covers_start (largest_nonneg C) fun _ _ => rfl
    refine ⟨_, s, interleaving_inTurn, hrun, le_antisymm hle ?_⟩
    exact largest_le h.nonneg fun i => h.done i (hdone i (List.mem_finRange i))
  · have hsum : ((List.finRange n).map fun i => (C i).sum).sum
        = ∑ i, (C i).sum := (Fin.sum_univ_def fun i => (C i).sum).symm
    obtain ⟨s₁, hreads, h₁, hmax, hsummed, -⟩ := run_reads hC (List.finRange n)
      (List.nodup_finRange n) covers_start fun _ _ => rfl
    have hzero : s₁.maxRowSum = 0 := hmax
    obtain ⟨s, hupdates, hend⟩ := run_updates hC (List.finRange n)
      (List.nodup_finRange n) h₁ hsummed (by rw [hzero, hsum]; omega)
    refine ⟨_, s, interleaving_reads_updates,
      Lib.run_append _ hreads hupdates, ?_⟩
    rw [hend, hzero, hsum]
    omega

/-- The theorem for two rows: 5 and 8. -/
theorem range_is_met_two :
    (∃ acts s, Interleaving acts
        ∧ Lib.run (threads ![[5, 0], [1, 2]]) acts (.start 2) = some s
        ∧ s.maxRowSum = largest ![[5, 0], [1, 2]])
      ∧ ∃ acts s, Interleaving acts
        ∧ Lib.run (threads ![[5, 0], [1, 2]]) acts (.start 2) = some s
        ∧ s.maxRowSum = ∑ i, (![[5, 0], [1, 2]] i : List Int).sum :=
  range_is_met ⟨by decide, by decide⟩ (by decide)

end OperatingSystem.Matrix
