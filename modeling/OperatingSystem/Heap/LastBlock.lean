/-
The last block stays inside the mapped region.

`last_block_size` is the one size that is not read off two headers. Where
the budget of `Mem_Init` is kept (`Fits`), the last block ends inside the
region even if it is cut into blocks of eight bytes with a header each, and
the more so as it is. What breaks the budget is `my_coalesce` on a block
that is the last one already: it adds the block's size to itself.
-/
import OperatingSystem.Heap.Bounds

namespace OperatingSystem.Heap

open Lib (Reach Anything)

variable {c : Config} {p : Int}

/-- In a run of frugal calls every header of the chain lies inside the
mapped region, and so do as many bytes behind the last one, if it is FREE,
as are recorded for it. -/
theorem last_block_inside (h : Reach (client Bounded) Frugal c)
    (hp : OnChain c.heap p) :
    c.heap.globalHead ≤ p
      ∧ p + BLOCK_HEADER ≤ c.heap.globalHead + c.heap.actualSize
      ∧ (c.heap.next p = some NULL → c.heap.status p = some FREE →
        p + BLOCK_HEADER + c.heap.lastBlockSize
          ≤ c.heap.globalHead + c.heap.actualSize) := by
  obtain ⟨L, hinv, hP, -⟩ := keeps_fits.sound
    (fun _ _ _ _ hb hrun hready => fits_memInit hb hrun hready) h
  obtain ⟨t, ht, rfl⟩ := (onChain_iff hinv.chain hinv.head).mp hp
  obtain ⟨A, B, rfl⟩ := List.append_of_mem ht
  have hlow := hinv.chain.mem.low
  have hhigh := hinv.chain.mem.high
  rw [hinv.base] at hlow hhigh
  rw [hinv.size] at hhigh
  refine ⟨hlow, hhigh, fun hnext hfree => ?_⟩
  have hB : B = [] := by
    rw [State.next_eq hinv.chain] at hnext
    exact hinv.chain.firstAddr_eq_null.mp (Option.some.inj hnext)
  have hlisted : t.listed = true := by
    rw [State.status_eq hinv.chain.mem, statusOf] at hfree
    cases hl : t.listed with
    | true => rfl
    | false =>
        rw [hl] at hfree
        exact absurd (Option.some.inj hfree) (by decide)
  -- a header and eight bytes for each eight bytes recorded
  obtain ⟨hge, hroom⟩ := hP.last_free hlisted hB
  unfold BLOCK_HEADER
  omega

/-- The theorem where the region has been cut once. -/
theorem last_block_inside_cut : ∃ c, Reach (client Bounded) Frugal c
    ∧ c.heap.next 65624 = some NULL ∧ c.heap.status 65624 = some FREE
    ∧ 65624 + BLOCK_HEADER + c.heap.lastBlockSize
      ≤ c.heap.globalHead + c.heap.actualSize := by
  let c := (step (.alloc 9 8) (opened 40)).get (by decide +kernel)
  have hok : Frugal (.alloc 9 8) (opened 40) := fun _ =>
    allocOk_of_search (by decide) (by decide +kernel) (by decide +kernel)
  have hstart : Reach (client Bounded) Frugal (opened 40) :=
    ⟨_, start_opened ⟨⟨by decide, by decide, by decide⟩, by decide, by decide⟩
      (by decide +kernel) (by decide +kernel), .refl _⟩
  have hreach : Reach (client Bounded) Frugal c :=
    hstart.step hok (Option.some_get _).symm
  have hnext : c.heap.next 65624 = some NULL := by decide +kernel
  have hfree : c.heap.status 65624 = some FREE := by decide +kernel
  have hon : OnChain c.heap 65624 := by
    have hhead : OnChain c.heap 65584 := by
      have heq : c.heap.head = 65584 := by decide +kernel
      rw [← heq]
      exact .head (by rw [heq]; decide)
    exact hhead.next (by decide +kernel) (by decide)
  exact ⟨c, hreach, hnext, hfree, (last_block_inside hreach hon).2.2 hnext hfree⟩

/-- Each `Mem_Free(NULL, 1)` doubles what is recorded for the only block. -/
theorem last_block_grows : ¬∀ (c : Config) (p : Int),
    Reach (client Bounded) Anything c → OnChain c.heap p →
    c.heap.next p = some NULL → c.heap.status p = some FREE →
    p + BLOCK_HEADER + c.heap.lastBlockSize
      ≤ c.heap.globalHead + c.heap.actualSize := by
  intro hall
  let c := (Lib.run (client Bounded) (List.replicate 7 (.free 9 NULL 1))
    (opened 40)).get (by decide +kernel)
  have hreach : Reach (client Bounded) Anything c :=
    Lib.reach_of_run _
      (start_opened ⟨⟨by decide, by decide, by decide⟩, by decide, by decide⟩
        (by decide +kernel) (by decide +kernel))
      (Option.some_get _).symm
  have heq : c.heap.head = 65584 := by decide +kernel
  have hon : OnChain c.heap 65584 := by
    rw [← heq]
    exact .head (by rw [heq]; decide)
  have hle := hall c 65584 hreach hon (by decide +kernel) (by decide +kernel)
  exact absurd hle (by decide +kernel)

end OperatingSystem.Heap
