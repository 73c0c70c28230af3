/-
The ledger: `remaining_size` against what the client has asked for.

`Mem_Alloc` subtracts the bytes it was asked for, `Mem_Free` adds the size of
the block: a multiple of eight, with the room of absorbed headers in it, and
for the last block what was recorded when it was taken. The two agree where
the block counts as many bytes as were asked for (`Counts`), and then the
ledger balances on any heap: nothing is asked of the free list or of the
chain.
-/
import Mathlib.Algebra.Order.BigOperators.Group.List
import Mathlib.Algebra.Ring.Int.Defs
import OperatingSystem.Heap.Client
import OperatingSystem.Heap.Steady

namespace OperatingSystem.Heap

open Lib (Words Reach Anything i64)

variable {s s' s₁ : State} {c c' : Config} {ptr size N coalesce r : Int}
  {fuel : Nat}

-- ========================================================== the condition

/-- The block behind `ptr` counts as `size` bytes when it is freed: it is
ALLOCATED, and `size` is its size, or the recorded one if it is the last. -/
structure Counts (s : State) (ptr size : Int) : Prop where
  valid : isValidAddr s ptr = some true
  allocated : s.status (getHeader ptr) = some ALLOCATED
  inner : ∀ next, s.next (getHeader ptr) = some next → next ≠ NULL →
    getBlockSize s (getHeader ptr) = some size
  last : s.next (getHeader ptr) = some NULL → s.sizeOfLastAllocate = size
  known : getBlockSize s (getHeader ptr) ≠ some RETURN_WITH_ERROR

/-- The bytes that have been asked for at `ptr`. -/
def asked (live : List (Int × Int)) (ptr : Int) : Int :=
  ((live.filter fun q => q.1 = ptr).map Prod.snd).sum

/-- Every freed block counts as what was asked for, in the state `Mem_Free`
finds it in once a pending global pass is done. -/
def Exact : Act → Config → Prop
  | .free fuel ptr coalesce, c => ptr ≠ NULL → ∀ s₁,
      pendingCoalesce fuel c.heap coalesce = some s₁ →
      Counts s₁ ptr (asked c.live ptr)
  | _, _ => True

/-- The bytes of all live allocations. -/
def total (live : List (Int × Int)) : Int := (live.map Prod.snd).sum

/-- What is freed and what stays make up the whole. -/
theorem total_filter (live : List (Int × Int)) (ptr : Int) :
    total (live.filter fun q => q.1 ≠ ptr) = total live - asked live ptr := by
  induction live with
  | nil => rfl
  | cons q rest ih =>
      unfold total asked at ih ⊢
      by_cases hq : q.1 = ptr
      · simp only [hq, ne_eq, decide_true, not_true, decide_false,
          List.filter_cons_of_pos, List.map_cons, List.sum_cons,
          Bool.false_eq_true, not_false_eq_true,
          List.filter_cons_of_neg] at ih ⊢
        omega
      · simp only [hq, ne_eq, not_false_eq_true, decide_true, decide_false,
          List.filter_cons_of_pos, List.map_cons, List.sum_cons,
          Bool.false_eq_true, List.filter_cons_of_neg] at ih ⊢
        omega

-- ========================================================== the two calls

/-- A block that counts as `size` bytes gives back `size` bytes. -/
theorem Counts.freeBlock (h : Counts s ptr size)
    (hrun : freeBlock fuel s (getHeader ptr) coalesce = some (r, s')) :
    s'.mem.base = s.mem.base
      ∧ s'.remainingSize = i64 (s.remainingSize + size) := by
  rcases steady_freeBlock hrun with ⟨-, herror⟩ | ⟨k, s₁, hk, -, hgive, hs⟩
  · exact absurd herror h.known
  refine ⟨hs.base.trans (steady_giveBack hgive).base,
    hs.remainingSize.trans ?_⟩
  unfold giveBack at hgive
  simp only [Option.bind_eq_bind] at hgive
  rw [h.allocated, Option.bind_some, if_pos rfl] at hgive
  obtain ⟨next, hnext, hgive⟩ := Option.bind_eq_some_iff.mp hgive
  split at hgive
  case isTrue hnull =>
    obtain rfl := Option.some.inj hgive
    rw [← h.last (hnull ▸ hnext)]
  case isFalse hne =>
    obtain rfl := Option.some.inj hgive
    rw [← Option.some.inj (hk.symm.trans (h.inner next hnext hne))]

/-- `Mem_Free` gives back what the block counts as, and nothing for
`NULL`. -/
theorem memFree_ledger (hcounts : ptr ≠ NULL → ∀ s₁,
      pendingCoalesce fuel s coalesce = some s₁ → Counts s₁ ptr size)
    (hrun : memFree fuel s ptr coalesce = some (r, s')) :
    s'.mem.base = s.mem.base
      ∧ s'.remainingSize = if ptr = NULL then s.remainingSize
        else i64 (s.remainingSize + size) := by
  unfold memFree at hrun
  by_cases hnull : ptr = NULL
  · rw [if_pos hnull] at hrun ⊢
    split at hrun
    case isTrue =>
      simp only [Option.bind_eq_bind, Option.bind_eq_some_iff] at hrun
      obtain ⟨s₁, hall, hrun⟩ := hrun
      obtain ⟨-, rfl⟩ := Prod.mk.inj (Option.some.inj hrun)
      exact ⟨(steady_coalesceAll hall).base,
        (steady_coalesceAll hall).remainingSize⟩
    case isFalse =>
      obtain ⟨-, rfl⟩ := Prod.mk.inj (Option.some.inj hrun)
      exact ⟨rfl, rfl⟩
  rw [if_neg hnull] at hrun ⊢
  simp only [Option.bind_eq_bind, Option.bind_eq_some_iff] at hrun
  obtain ⟨s₁, hpending, valid, hvalid, hrun⟩ := hrun
  have hs₁ := steady_pendingCoalesce hpending
  have hc := hcounts hnull s₁ hpending
  -- the flag that is set in between changes nothing here
  generalize hs₂ : (if coalesce = 0 then
    { s₁ with needGlobalCoalesce := TRUE } else s₁) = s₂ at hvalid hrun
  have hc₂ : Counts s₂ ptr size ∧ s₂.mem.base = s₁.mem.base
      ∧ s₂.remainingSize = s₁.remainingSize := by
    rw [← hs₂]
    split
    · exact ⟨⟨hc.valid, hc.allocated, hc.inner, hc.last, hc.known⟩, rfl, rfl⟩
    · exact ⟨hc, rfl, rfl⟩
  obtain ⟨hc₂, hbase₂, hleft₂⟩ := hc₂
  obtain rfl := Option.some.inj (hvalid.symm.trans hc₂.valid)
  rw [if_pos rfl] at hrun
  obtain ⟨hbase, hleft⟩ := hc₂.freeBlock hrun
  exact ⟨hbase.trans (hbase₂.trans hs₁.base),
    by rw [hleft, hleft₂, hs₁.remainingSize]⟩

-- ============================================================== the ledger

/-- What is left and what is live make `N`. -/
structure Balanced (N : Int) (c : Config) : Prop where
  base : 0 ≤ c.heap.mem.base
  left : 0 ≤ c.heap.remainingSize
  total : c.heap.remainingSize = N - total c.live
  asked : ∀ q ∈ c.live, 0 ≤ q.2 ∧ q.1 ≠ NULL

/-- One call, or one write of the client. -/
theorem Balanced.step (h : Balanced N c) (hN : N < 9223372036854775808)
    (a : Act) (hok : Exact a c) (hstep : step a c = some c') :
    Balanced N c' := by
  have htotal := h.total
  have hleft := h.left
  have hnonneg : ∀ {live : List (Int × Int)}, (∀ q ∈ live, 0 ≤ q.2) →
      0 ≤ Heap.total live := fun hlive =>
    List.sum_nonneg (List.forall_mem_map.mpr hlive)
  cases a with
  | alloc fuel size =>
      obtain ⟨hsize, p, heap, hrun, rfl⟩ := step_alloc hstep
      obtain ⟨hs, hp⟩ := steady_memAlloc hrun
      have hbase : 0 ≤ heap.mem.base := hs.base ▸ h.base
      rcases hp with ⟨rfl, hsame⟩ | ⟨hlow, hserved, hless⟩
      · exact ⟨hbase, hsame ▸ hleft, hsame.trans htotal, h.asked⟩
      · have hne : p ≠ NULL := by
          have := h.base
          unfold BLOCK_HEADER at hlow
          unfold NULL
          omega
        have hlive := hnonneg fun q hq => (h.asked q hq).1
        rw [Lib.i64_of_range (by omega) (by omega)] at hless
        rw [if_neg hne]
        refine ⟨hbase, by dsimp only; omega, ?_, ?_⟩
        · dsimp only
          rw [Heap.total, List.map_cons, List.sum_cons, ← Heap.total]
          omega
        · exact List.forall_mem_cons.mpr ⟨⟨by dsimp only; omega, hne⟩, h.asked⟩
  | free fuel ptr coalesce =>
      obtain ⟨-, r, heap, hrun, rfl⟩ := step_free hstep
      obtain ⟨hbase, hgiven⟩ := memFree_ledger hok hrun
      have hkept : ∀ q ∈ c.live.filter fun q => q.1 ≠ ptr,
          0 ≤ q.2 ∧ q.1 ≠ NULL := fun q hq =>
        h.asked q (List.mem_of_mem_filter hq)
      have hrest := total_filter c.live ptr
      have hlow := hnonneg fun q hq => (hkept q hq).1
      have hasked : 0 ≤ Heap.asked c.live ptr := by
        refine List.sum_nonneg (List.forall_mem_map.mpr fun q hq => ?_)
        exact (h.asked q (List.mem_of_mem_filter hq)).1
      by_cases hnull : ptr = NULL
      · have hnone : Heap.asked c.live ptr = 0 := by
          have hempty : (c.live.filter fun q => q.1 = ptr) = [] :=
            List.filter_eq_nil_iff.mpr fun q hq heq =>
              (h.asked q hq).2 ((of_decide_eq_true heq).trans hnull)
          rw [Heap.asked, hempty]
          rfl
        rw [if_pos hnull] at hgiven
        exact ⟨by rw [hbase]; exact h.base, by dsimp only; omega,
          by dsimp only; omega, hkept⟩
      · rw [if_neg hnull, Lib.i64_of_range (by omega) (by omega)] at hgiven
        exact ⟨by rw [hbase]; exact h.base, by dsimp only; omega,
          by dsimp only; omega, hkept⟩
  | write a v =>
      obtain ⟨-, heap, hstore, rfl⟩ := step_write hstep
      obtain ⟨hs, -⟩ := steady_store hstore
      exact ⟨hs.base ▸ h.base, hs.remainingSize ▸ hleft,
        hs.remainingSize.trans htotal, h.asked⟩

end OperatingSystem.Heap
