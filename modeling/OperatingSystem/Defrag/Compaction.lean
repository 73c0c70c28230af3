/-
What the defragmenter is for: after the inode loop every live file reads as
before, and its blocks lie one after the other.

Both results are read off the copy invariant of `Files` once the program's
wrapped block addresses are replaced by the image's own (`placed_exactly`):
the blocks a file of a well-formed image needs have numbers in the data
region, where nothing wraps. That is the only use of the ranges; that no
two files share a block is not used, the source is never written.
-/
import OperatingSystem.Defrag.Files

namespace OperatingSystem.Defrag

open Lib (Buffer MirrorRoots Root consecutive)

variable {g : Regions} {whole : Buffer} {s : State} {i k : Nat}

-- ===================================================== from raw to exact

/-- Block `v` of the source, byte for byte, is block `w` of `dest`. -/
def SameBlock (g : Regions) (whole dest : Buffer) (v w : Int) : Prop :=
  dest.slice (g.blockAt w) g.blockSize = whole.slice (g.blockAt v) g.blockSize

theorem mem_liveInodes : i ∈ liveInodes g whole ↔
    i < g.numInode.toNat ∧ Live whole (g.inode i) := by
  simp [liveInodes]

/-- A block of the data region is where the program looks for it. -/
theorem WellFormed.block_eq (h : WellFormed whole g) {b : Int} (hlo : 0 ≤ b)
    (hhi : b < whole.int sbSwapOffset - whole.int sbDataOffset) :
    g.block b = g.blockAt b := by
  have hdata := h.regions.2.2.1
  have hfits := h.fits
  have hpos := h.block_pos
  have hle := Int.mul_le_mul_of_nonneg_right
    (show whole.int sbDataOffset + b ≤ whole.int sbSwapOffset by omega)
    (Int.le_of_lt hpos)
  rw [Int.add_mul] at hle
  refine (h.bounds.block_eq hlo ?_).1
  unfold Regions.blockAt
  omega

/-- The copy of a well-formed image's file, in the image's own terms. -/
theorem Placed.exactly {dest : Buffer} {first : Int}
    (hp : Placed g whole g.numIntInBlock dest i first) (h : WellFormed whole g)
    (hi : i ∈ liveInodes g whole) :
    MirrorRoots (SameBlock g whole dest) (child g whole) (child g dest)
      g.numIntInBlock (roots whole (g.inode i)) (roots dest (g.inode i))
      first (fileLength g whole (g.inode i)) := by
  refine hp.mirror.source fun u hu => ?_
  obtain ⟨hlo, hhi⟩ := h.in_range i hi u hu
  have haddr := h.block_eq hlo hhi
  refine ⟨fun j _ => ?_, fun w hsame => ?_⟩
  · unfold child rawChild
    rw [haddr]
  · refine Buffer.slice_congr fun x hx hx' => ?_
    rw [hsame x hx hx', haddr]

theorem placed_exactly (h : WellFormed whole g) {start : Nat → Int}
    (hp : Progress g whole g.numIntInBlock g.numInode.toNat start s)
    (hi : i ∈ liveInodes g whole) :
    MirrorRoots (SameBlock g whole s.dest) (child g whole) (child g s.dest)
      g.numIntInBlock (roots whole (g.inode i)) (roots s.dest (g.inode i))
      (start i) (fileLength g whole (g.inode i)) := by
  obtain ⟨hlt, hlive⟩ := mem_liveInodes.mp hi
  exact (hp.placed i hlt hlive).2.1.exactly h hi

/-- A live file has as many blocks after the loop as before. -/
theorem fileLength_kept (hp : Progress g whole g.numIntInBlock
      g.numInode.toNat start s) (hi : i ∈ liveInodes g whole) :
    fileLength g s.dest (g.inode i) = fileLength g whole (g.inode i) := by
  obtain ⟨hlt, hlive⟩ := mem_liveInodes.mp hi
  have hheader := (hp.placed i hlt hlive).2.1.header
  unfold fileLength
  rw [Buffer.int_congr (hheader.mono (by simp only [size]; omega)
    (by simp only [size, dblocks]; omega))]

/-- An inode can reach `maxBlocks` blocks. -/
theorem sum_caps (img : Buffer) (curr : Int) (n : Nat) :
    (((roots img curr).map (Root.cap n)).sum : Int) = maxBlocks n := by
  simp only [roots, Root.cap, List.map_cons, List.map_nil, List.sum_cons,
    List.sum_nil, N_DBLOCKS, N_IBLOCKS, maxBlocks]
  push_cast
  ring

/-- A well-formed file is within reach of its inode. -/
theorem WellFormed.length_le (h : WellFormed whole g)
    (hi : i ∈ liveInodes g whole) :
    fileLength g whole (g.inode i)
      ≤ ((roots whole (g.inode i)).map (Root.cap g.numIntInBlock)).sum := by
  have hints := h.bounds.ints
  have hpos := h.block_pos
  have hmax := (h.sizes i hi).2
  rw [show g.blockSize / INT_SIZE = g.numIntInBlock by
    rw [hints, INT_SIZE]; omega, ← sum_caps whole (g.inode i)] at hmax
  unfold fileLength Regions.blocksFor
  have hlt := (Int.ediv_lt_iff_lt_mul hpos).mpr
    (show whole.int (g.inode i + size) + g.blockSize - 1
      < ((((roots whole (g.inode i)).map
          (Root.cap g.numIntInBlock)).sum : Int) + 1) * g.blockSize by
      rw [Int.add_mul]
      omega)
  omega

-- =========================================================== the results

/-- Every live file reads after the inode loop as it read before: logical
block `k`, found through the rewritten pointers, holds the bytes it held. -/
theorem files_preserved (hwf : WellFormed whole g)
    (hrun : inodeLoop g whole = some s) :
    ∀ i ∈ liveInodes g whole, ∀ k < fileLength g whole (g.inode i),
      ∃ b b', resolve g whole (g.inode i) k = some b
        ∧ resolve g s.dest (g.inode i) k = some b'
        ∧ s.dest.slice (g.blockAt b') g.blockSize
          = whole.slice (g.blockAt b) g.blockSize := by
  intro i hi k hk
  obtain ⟨start, hp⟩ := inodeLoop_spec hwf.bounds hrun
  exact (placed_exactly hwf hp hi).resolve hwf.bounds.pos hk
    (Nat.lt_of_lt_of_le hk (hwf.length_le hi))

/-- The theorem for block 1 of the example's file. -/
theorem files_preserved_sample : ∃ s,
    inodeLoop sampleRegions sample = some s ∧ ∃ b b',
      resolve sampleRegions sample (sampleRegions.inode 0) 1 = some b
        ∧ resolve sampleRegions s.dest (sampleRegions.inode 0) 1 = some b'
        ∧ s.dest.slice (sampleRegions.blockAt b') sampleRegions.blockSize
          = sample.slice (sampleRegions.blockAt b) sampleRegions.blockSize := by
  obtain ⟨s, hrun⟩ : ∃ s, inodeLoop sampleRegions sample = some s :=
    Option.isSome_iff_exists.mp (by decide +kernel)
  exact ⟨s, hrun, files_preserved sample_wellFormed hrun 0
    (by decide +kernel) 1 (by decide +kernel)⟩

/-- The number of blocks in the pre-order list. -/
theorem fileBlocks_length (g : Regions) (whole : Buffer) (i : Nat) :
    (fileBlocks g whole (g.inode i)).length
      = fileNodes g whole g.numIntInBlock i :=
  Lib.preorderRoots_length _ _ _ _

/-- After the loop every live file has as many blocks, data and index, as it
had before; in pre-order they have consecutive numbers; the files follow one
another in inode order, and all numbers are below `block_index`. -/
theorem files_compacted (hwf : WellFormed whole g)
    (hrun : inodeLoop g whole = some s) :
    ∃ start : Nat → Int,
      (∀ i ∈ liveInodes g whole,
        fileLength g s.dest (g.inode i) = fileLength g whole (g.inode i)
          ∧ fileBlocks g s.dest (g.inode i)
            = consecutive (start i) (fileBlocks g whole (g.inode i)).length
          ∧ 0 ≤ start i
          ∧ start i + (fileBlocks g whole (g.inode i)).length ≤ s.blockIndex)
      ∧ ∀ i ∈ liveInodes g whole, ∀ j ∈ liveInodes g whole, i < j →
          start i + (fileBlocks g whole (g.inode i)).length ≤ start j := by
  obtain ⟨start, hp⟩ := inodeLoop_spec hwf.bounds hrun
  refine ⟨start, fun i hi => ?_, fun i hi j hj hij => ?_⟩
  · obtain ⟨hlt, hlive⟩ := mem_liveInodes.mp hi
    obtain ⟨hlo, -, hle⟩ := hp.placed i hlt hlive
    have hlength := fileLength_kept hp hi
    refine ⟨hlength, ?_, hlo, ?_⟩
    · rw [fileBlocks_length, fileBlocks, hlength]
      exact (placed_exactly hwf hp hi).preorder hwf.bounds.pos
    · rw [fileBlocks_length]
      exact hle
  · obtain ⟨-, hi'⟩ := mem_liveInodes.mp hi
    obtain ⟨hlt, hj'⟩ := mem_liveInodes.mp hj
    rw [fileBlocks_length]
    exact hp.ordered i j hij hlt hi' hj'

/-- Two files, of two blocks and of one, with the second one's block between
those of the first. -/
def twoFiles : Buffer :=
  [(sbSize, 4), (sbDataOffset, 50), (sbSwapOffset, 53),
    (1024 + nlink, 1), (1024 + size, 8), (1024 + dblocks, 2),
    (1024 + dblocks + INT_SIZE, 0), (1124 + nlink, 1), (1124 + size, 3),
    (1124 + dblocks, 1), (1224, 7), (1228, 8), (1232, 9)].foldl
    (fun img p => img.putInt p.1 p.2) (Buffer.zero 1236)

def twoFilesRegions : Regions := ⟨4, 1024, 1224, 2⟩

theorem twoFiles_wellFormed : WellFormed twoFiles twoFilesRegions := by
  constructor <;> decide +kernel

/-- The theorem for them: two blocks in a row, and one behind. -/
theorem files_compacted_two : ∃ (s : State) (start : Nat → Int),
    inodeLoop twoFilesRegions twoFiles = some s
      ∧ fileBlocks twoFilesRegions s.dest (twoFilesRegions.inode 0)
        = [start 0, start 0 + 1]
      ∧ fileBlocks twoFilesRegions s.dest (twoFilesRegions.inode 1)
        = [start 1]
      ∧ 0 ≤ start 0 ∧ start 0 + 2 ≤ start 1 ∧ start 1 + 1 ≤ s.blockIndex := by
  obtain ⟨s, hrun⟩ : ∃ s, inodeLoop twoFilesRegions twoFiles = some s :=
    Option.isSome_iff_exists.mp (by decide +kernel)
  obtain ⟨start, hfiles, hordered⟩ := files_compacted twoFiles_wellFormed hrun
  have hlive : 0 ∈ liveInodes twoFilesRegions twoFiles
      ∧ 1 ∈ liveInodes twoFilesRegions twoFiles := by decide +kernel
  have htwo : (fileBlocks twoFilesRegions twoFiles
      (twoFilesRegions.inode 0)).length = 2 := by decide +kernel
  have hone : (fileBlocks twoFilesRegions twoFiles
      (twoFilesRegions.inode 1)).length = 1 := by decide +kernel
  obtain ⟨-, hblocks₀, hlo, -⟩ := hfiles 0 hlive.1
  obtain ⟨-, hblocks₁, -, hle⟩ := hfiles 1 hlive.2
  have hlt := hordered 0 hlive.1 1 hlive.2 Nat.zero_lt_one
  rw [htwo] at hblocks₀ hlt
  rw [hone] at hblocks₁ hle
  refine ⟨s, start, hrun, hblocks₀.trans ?_, hblocks₁.trans ?_, hlo, hlt, hle⟩
  · simp [consecutive, List.range_succ]
  · simp [consecutive, List.range_succ]

end OperatingSystem.Defrag
