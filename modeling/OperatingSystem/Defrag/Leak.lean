/-
How many blocks `free_block` counts, against how many the files need.

`Count` gives `block_index` after the inode loop as a sum; here the sum is
split into what the live files need and the spare block of every live file
that exactly fills its single or double indirect pointers. Without such a
file a well-formed image is always written, because the needed blocks are
distinct blocks of the data region and so fit into it.
-/
import Mathlib.Algebra.BigOperators.Group.List.Basic
import Mathlib.Data.List.Perm.Subperm
import OperatingSystem.Defrag.Written
import OperatingSystem.Defrag.Runs

namespace OperatingSystem.Defrag

open Lib (Buffer consecutive)

variable {g : Regions} {whole dest : Buffer} {s : State}

-- ==================================================== how many are taken

/-- The blocks the live files need: their data blocks and the index blocks
on the way to them. -/
def blocksNeeded (g : Regions) (img : Buffer) : Nat :=
  ((liveInodes g img).map fun i => (fileBlocks g img (g.inode i)).length).sum

/-- The file of inode `i` exactly fills its single or its double indirect
pointers. -/
def FillsLevel (g : Regions) (img : Buffer) (i : Nat) : Prop :=
  fileLength g img (g.inode i) = N_DBLOCKS + N_IBLOCKS * g.numIntInBlock
    ∨ fileLength g img (g.inode i)
      = N_DBLOCKS + N_IBLOCKS * g.numIntInBlock + g.numIntInBlock ^ 2

instance (g : Regions) (img : Buffer) (i : Nat) :
    Decidable (FillsLevel g img i) := by
  unfold FillsLevel
  infer_instance

/-- The spare blocks of all live files. -/
def sparesTaken (g : Regions) (img : Buffer) : Nat :=
  ((liveInodes g img).map fun i => (spareSlots g.numIntInBlock
    (fileLength g img (g.inode i))).length).sum

theorem spareSlots_eq_nil (hwf : WellFormed whole g) (i : Nat) :
    spareSlots g.numIntInBlock (fileLength g whole (g.inode i)) = []
      ↔ ¬FillsLevel g whole i := by
  unfold FillsLevel
  constructor
  · intro h hfill
    rcases hfill with hlen | hlen
    · rw [spareSlots_lv2 hlen] at h
      cases h
    · rw [spareSlots_lv3 hwf.bounds.pos hlen] at h
      cases h
  · intro h
    unfold spareSlots
    rw [if_neg fun hlen => h (.inl hlen), if_neg fun hlen => h (.inr hlen)]

/-- Nothing is spare exactly when no file fills a level. -/
theorem sparesTaken_eq_zero (hwf : WellFormed whole g) :
    sparesTaken g whole = 0
      ↔ ∀ i ∈ liveInodes g whole, ¬FillsLevel g whole i := by
  unfold sparesTaken
  rw [List.sum_eq_zero_iff_forall_eq_nat]
  constructor
  · intro h i hi
    have := h _ (List.mem_map.mpr ⟨i, hi, rfl⟩)
    exact (spareSlots_eq_nil hwf i).mp (List.length_eq_zero_iff.mp this)
  · intro h k hk
    obtain ⟨i, hi, rfl⟩ := List.mem_map.mp hk
    exact List.length_eq_zero_iff.mpr ((spareSlots_eq_nil hwf i).mpr (h i hi))

/-- A sum over the members that satisfy a condition. -/
theorem sum_filter {p : Nat → Prop} [DecidablePred p] (f : Nat → Nat)
    (l : List Nat) : (l.map fun i => if p i then f i else 0).sum
      = ((l.filter fun i => p i).map f).sum := by
  induction l with
  | nil => rfl
  | cons a l ih =>
      rw [List.map_cons, List.sum_cons, ih, List.filter_cons]
      by_cases ha : p a <;> simp [ha]

/-- `block_index` after the inode loop. -/
theorem takenBefore_all (g : Regions) (whole : Buffer) :
    takenBefore g whole g.numIntInBlock g.numInode.toNat
      = blocksNeeded g whole + sparesTaken g whole := by
  unfold takenBefore inodeTaken blocksNeeded sparesTaken liveInodes
  rw [sum_filter, ← List.sum_map_add]
  refine congrArg List.sum (List.map_congr_left fun i _ => ?_)
  unfold fileBlocks fileNodes
  rw [Lib.preorderRoots_length]

/-- The needed blocks of a well-formed file are where the program looks for
them. -/
theorem rawBlocks_eq_fileBlocks (hwf : WellFormed whole g) {i : Nat}
    (hi : i ∈ liveInodes g whole) :
    rawBlocks g whole g.numIntInBlock (g.inode i)
      = fileBlocks g whole (g.inode i) := by
  refine Lib.preorderRoots_congr _ _ (.refl _) fun u hu j _ => ?_
  obtain ⟨hlo, hhi⟩ := hwf.in_range i hi u hu
  unfold rawChild child
  rw [hwf.block_eq hlo hhi]

theorem WellFormed.readable (h : WellFormed whole g) {b : Int} (hlo : 0 ≤ b)
    (hhi : b < whole.int sbSwapOffset - whole.int sbDataOffset) :
    Readable g whole b := by
  have hsuper := (h.super_lt hlo).1
  have hend := h.block_fits hhi
  have hfits := h.fits
  have hpos := h.block_pos
  unfold Readable
  rw [h.block_eq hlo hhi]
  exact ⟨by omega, by omega, by omega⟩

theorem mem_consecutive {start b : Int} {len : Nat} (hlo : start ≤ b)
    (hhi : b < start + len) : b ∈ consecutive start len := by
  unfold consecutive
  exact List.mem_map.mpr
    ⟨(b - start).toNat, List.mem_range.mpr (by omega), by omega⟩

/-- The needed blocks fit into the data region: they are distinct. -/
theorem blocksNeeded_le (hwf : WellFormed whole g) :
    (blocksNeeded g whole : Int)
      ≤ whole.int sbSwapOffset - whole.int sbDataOffset := by
  have hnonneg := hwf.blocks_range.1
  have hrange := hwf.in_range
  generalize whole.int sbSwapOffset - whole.int sbDataOffset = blocks at *
  have hsub : ((liveInodes g whole).flatMap fun i =>
      fileBlocks g whole (g.inode i)) ⊆ consecutive 0 blocks.toNat := by
    intro b hb
    obtain ⟨i, hi, hb⟩ := List.mem_flatMap.mp hb
    obtain ⟨hlo, hhi⟩ := hrange i hi b hb
    exact mem_consecutive hlo (by omega)
  have hle := (List.subperm_of_subset hwf.distinct hsub).length_le
  rw [Lib.consecutive_length, List.length_flatMap] at hle
  unfold blocksNeeded
  omega

/-- In a well-formed image the inode loop makes no wild access if the spare
blocks can be read and everything taken fits into the data region. -/
theorem inodeLoop_of_wellFormed (hwf : WellFormed whole g)
    (hspare : ∀ i ∈ liveInodes g whole,
      ∀ o ∈ spareSlots g.numIntInBlock (fileLength g whole (g.inode i)),
        Readable g whole (whole.int (g.inode i + o)))
    (hfit : (blocksNeeded g whole : Int) + sparesTaken g whole
      ≤ whole.int sbSwapOffset - whole.int sbDataOffset) :
    ∃ s, inodeLoop g whole = some s := by
  have hB := hwf.bounds
  refine inodeLoop_runs hB (fun i hi hlive => ?_) ?_
  · have hmem := mem_liveInodes.mpr ⟨hi, hlive⟩
    constructor
    case needed =>
      rw [rawBlocks_eq_fileBlocks hwf hmem]
      intro u hu
      obtain ⟨hlo, hhi⟩ := hwf.in_range i hmem u hu
      exact hwf.readable hlo hhi
    case spare => exact hspare i hmem
  · rw [takenBefore_all]
    have hmono := hB.blockAt_mono hfit
    rw [hwf.blockAt_end] at hmono
    push_cast
    exact hmono.trans hwf.fits

/-- Without a file that fills a level there are no spare blocks. -/
theorem inodeLoop_of_noFill (hwf : WellFormed whole g)
    (h : ∀ i ∈ liveInodes g whole, ¬FillsLevel g whole i) :
    ∃ s, inodeLoop g whole = some s := by
  refine inodeLoop_of_wellFormed hwf (fun i hi => ?_) ?_
  · rw [(spareSlots_eq_nil hwf i).mpr (h i hi)]
    exact fun _ ho => absurd ho List.not_mem_nil
  · rw [(sparesTaken_eq_zero hwf).mpr h, Int.natCast_zero, Int.add_zero]
    exact blocksNeeded_le hwf

-- ============================================================ the result

/-- Unless a live file exactly fills a level, the image is written; and the
`free_block` of an image that is written counts the needed blocks if and
only if no live file does, or, when the copy of the swap region covers that
field, if the original field happened to. -/
theorem free_block_counts_iff (hwf : WellFormed whole g) :
    ((∀ i ∈ liveInodes g whole, ¬FillsLevel g whole i) →
        ∃ dest data, defrag whole = some (dest, data))
      ∧ ∀ dest data, defrag whole = some (dest, data) →
        (dest.int sbFreeBlock = blocksNeeded g whole
          ↔ if whole.int sbSwapOffset * g.blockSize ≤ sbFreeBlock then
              whole.int sbFreeBlock = blocksNeeded g whole
            else ∀ i ∈ liveInodes g whole, ¬FillsLevel g whole i) := by
  have hB := hwf.bounds
  constructor
  · intro hfill
    obtain ⟨s, hrun⟩ := inodeLoop_of_noFill hwf hfill
    obtain ⟨dest, hdest, -⟩ :=
      afterLoop_eq hwf (inodeLoop_counted hB hrun).progress
    exact ⟨dest, s.dataFile, (defrag_cases hwf).mpr ⟨s, hrun, hdest, rfl⟩⟩
  · intro dest data h
    obtain ⟨s, hrun, hdest, -⟩ := (defrag_cases hwf).mp h
    have hindex := (inodeLoop_counted hB hrun).index
    rw [takenBefore_all] at hindex
    rw [written_freeBlock hwf hrun hdest]
    split
    case isTrue => rfl
    case isFalse =>
      rw [hindex, ← sparesTaken_eq_zero hwf]
      omega

-- ============================================================ an example

/-- The words of a disk with one file of fourteen blocks of four bytes,
which fill its direct and its single indirect pointers. -/
def filledWords : List (Int × Int) :=
  [(sbSize, 4), (sbDataOffset, 25), (sbSwapOffset, 134), (1024 + nlink, 1),
      (1024 + size, 56)]
    ++ (List.range 14).map (fun j : Nat => (1024 + dblocks + 4 * (j : Int), (j : Int)))
    ++ (List.range 4).map fun j : Nat => (1164 + 4 * (j : Int), 14 + (j : Int))

def filled : Buffer :=
  filledWords.foldl (fun img p => img.putInt p.1 p.2) (Buffer.zero 1560)

def filledRegions : Regions := ⟨4, 1024, 1124, 1⟩

theorem filled_wellFormed : WellFormed filled filledRegions := by
  constructor <;> decide +kernel

/-- The disk with a file of thirteen blocks, one short of that. -/
def almostFilled : Buffer := filled.putInt (1024 + size) 52

theorem almostFilled_wellFormed : WellFormed almostFilled filledRegions := by
  constructor <;> decide +kernel

/-- The theorem for the two disks. Thirteen blocks are reached through three
index blocks, and sixteen are counted; fourteen are reached through four, and
a block too many is counted. -/
theorem free_block_counts_iff_filled :
    (∃ dest data, defrag almostFilled = some (dest, data)
      ∧ (∀ i ∈ liveInodes filledRegions almostFilled,
        ¬FillsLevel filledRegions almostFilled i)
      ∧ dest.int sbFreeBlock = blocksNeeded filledRegions almostFilled
      ∧ blocksNeeded filledRegions almostFilled = 16)
    ∧ ∃ dest data, defrag filled = some (dest, data)
      ∧ ¬(∀ i ∈ liveInodes filledRegions filled,
        ¬FillsLevel filledRegions filled i)
      ∧ dest.int sbFreeBlock ≠ blocksNeeded filledRegions filled := by
  constructor
  · have hopen : ∀ i ∈ liveInodes filledRegions almostFilled,
        ¬FillsLevel filledRegions almostFilled i := by
      decide +kernel
    obtain ⟨hwritten, hcounts⟩ := free_block_counts_iff almostFilled_wellFormed
    obtain ⟨dest, data, hrun⟩ := hwritten hopen
    have hcount := hcounts dest data hrun
    rw [if_neg (by decide +kernel)] at hcount
    exact ⟨dest, data, hrun, hopen, hcount.mpr hopen, by decide +kernel⟩
  · have hfills : ¬∀ i ∈ liveInodes filledRegions filled,
        ¬FillsLevel filledRegions filled i := by
      decide +kernel
    obtain ⟨⟨dest, data⟩, hrun⟩ : ∃ out, defrag filled = some out :=
      Option.isSome_iff_exists.mp (by decide +kernel)
    have hcount := (free_block_counts_iff filled_wellFormed).2 dest data hrun
    rw [if_neg (by decide +kernel)] at hcount
    exact ⟨dest, data, hrun, hfills, hfills ∘ hcount.mp⟩

/-- The file of fourteen blocks needs eighteen; the defragmenter takes
nineteen. -/
theorem free_block_overcounts : ¬ ∀ whole g, WellFormed whole g →
    ∃ dest data, defrag whole = some (dest, data)
      ∧ dest.int sbFreeBlock = blocksNeeded g whole := by
  intro h
  obtain ⟨dest, data, hrun, hcount⟩ := h filled filledRegions filled_wellFormed
  have hneeded : blocksNeeded filledRegions filled = 18 := by decide +kernel
  have hfree : (defrag filled).map (fun out => out.1.int sbFreeBlock)
      = some 19 := by
    decide +kernel
  rw [hrun, Option.map_some, Option.some.injEq, hcount, hneeded] at hfree
  exact absurd hfree (by decide)

end OperatingSystem.Defrag
