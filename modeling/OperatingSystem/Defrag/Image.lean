/-
What a disk image means, independently of the defragmenter: how a reader
of the file system finds block `k` of a file, which blocks a file needs,
and when an image is well formed.

A file is an `IndexTree` file with four roots, the four groups of pointers
of its inode. Here block `b` is at `dataBegin + b * blockSize`, without
the 32-bit wrapping of the program; `block_eq` connects the two for the
numbers that can occur.
-/
import OperatingSystem.Defrag.Basic
import OperatingSystem.Lib.IndexTree

namespace OperatingSystem.Defrag

open Lib (Buffer Root i32 preorderRoots leavesRoots resolveRoots)

-- ============================================================ the layout

/-- Where block `b` of the data region is. -/
def Regions.blockAt (g : Regions) (b : Int) : Int :=
  g.dataBegin + b * g.blockSize

/-- Slot `j` of index block `v`. -/
def child (g : Regions) (img : Buffer) (v : Int) (j : Nat) : Int :=
  img.int (g.blockAt v + INT_SIZE * j)

/-- The pointers of the inode at `curr`: ten direct, four single indirect,
one double and one triple indirect. -/
def roots (img : Buffer) (curr : Int) : List (Root Int) :=
  [⟨0, N_DBLOCKS, fun j => img.int (curr + dblocks + INT_SIZE * j)⟩,
    ⟨1, N_IBLOCKS, fun j => img.int (curr + iblocks + INT_SIZE * j)⟩,
    ⟨2, 1, fun j => img.int (curr + i2block + INT_SIZE * j)⟩,
    ⟨3, 1, fun j => img.int (curr + i3block + INT_SIZE * j)⟩]

/-- The inode at `curr` is in use. -/
def Live (img : Buffer) (curr : Int) : Prop := img.int (curr + nlink) ≠ 0

instance (img : Buffer) (curr : Int) : Decidable (Live img curr) := by
  unfold Live
  infer_instance

/-- `ceil(fileSize / BLOCK_SIZE)`, and 0 for a negative size. -/
def Regions.blocksFor (g : Regions) (fileSize : Int) : Nat :=
  ((fileSize + g.blockSize - 1) / g.blockSize).toNat

/-- How many logical blocks the file of the inode at `curr` has. -/
def fileLength (g : Regions) (img : Buffer) (curr : Int) : Nat :=
  g.blocksFor (img.int (curr + size))

/-- The data and index blocks the file needs, in pre-order. -/
def fileBlocks (g : Regions) (img : Buffer) (curr : Int) : List Int :=
  preorderRoots (child g img) g.numIntInBlock (roots img curr)
    (fileLength g img curr)

/-- The block that holds logical block `k` of the file. -/
def resolve (g : Regions) (img : Buffer) (curr : Int) (k : Nat) : Option Int :=
  resolveRoots (child g img) g.numIntInBlock (roots img curr) k

/-- The indices of the live inodes. -/
def liveInodes (g : Regions) (img : Buffer) : List Nat :=
  (List.range g.numInode.toNat).filter fun i => Live img (g.inode i)

/-- How many blocks an inode can reach, `n` numbers to an index block. -/
def maxBlocks (n : Int) : Int := 10 + 4 * n + n ^ 2 + n ^ 3

/-- A well-formed disk image with regions `g`. -/
structure WellFormed (img : Buffer) (g : Regions) : Prop where
  read : readRegions img = some g
  block_pos : 0 < g.blockSize
  block_ints : INT_SIZE ∣ g.blockSize
  inode_offset : 0 ≤ img.int sbInodeOffset
  data_offset : img.int sbInodeOffset ≤ img.int sbDataOffset
  swap_offset : img.int sbDataOffset ≤ img.int sbSwapOffset
  fits : 1024 + img.int sbSwapOffset * g.blockSize ≤ img.size
  fileSize : img.size < 2147483648
  sizes : ∀ i ∈ liveInodes g img,
    0 ≤ img.int (g.inode i + size)
      ∧ img.int (g.inode i + size)
        ≤ maxBlocks (g.blockSize / INT_SIZE) * g.blockSize
  in_range : ∀ i ∈ liveInodes g img, ∀ b ∈ fileBlocks g img (g.inode i),
    0 ≤ b ∧ b < img.int sbSwapOffset - img.int sbDataOffset
  distinct : ((liveInodes g img).flatMap fun i =>
    fileBlocks g img (g.inode i)).Nodup

-- ================================================ what the bounds amount to

variable {img : Buffer} {g : Regions}

/-- The region bounds of a well-formed image, in bytes. -/
structure Bounds (g : Regions) (fileSize : Int) (n : Nat) : Prop where
  ints : g.blockSize = 4 * n
  pos : 0 < n
  numInts : g.numIntInBlock = n
  inode : 1024 ≤ g.inodeBegin
  records : g.inodeBegin + INODE_SIZE * g.numInode ≤ g.dataBegin
  inodes : 0 ≤ g.numInode
  data : g.dataBegin ≤ fileSize
  fileSize : fileSize < 2147483648

/-- Products of an offset in range with `BLOCK_SIZE` do not wrap. -/
theorem WellFormed.offset_range (h : WellFormed img g) {o : Int}
    (hlo : 0 ≤ o) (hhi : o ≤ img.int sbSwapOffset) :
    0 ≤ o * g.blockSize
      ∧ o * g.blockSize ≤ img.int sbSwapOffset * g.blockSize :=
  ⟨Int.mul_nonneg hlo (Int.le_of_lt h.block_pos),
    Int.mul_le_mul_of_nonneg_right hhi (Int.le_of_lt h.block_pos)⟩

/-- A region inside the file starts where its offset says: nothing
wraps. -/
theorem base_of_offset {x s fileSize : Int} (hlo : 0 ≤ x) (hhi : x ≤ s)
    (hfits : 1024 + s ≤ fileSize) (hsize : fileSize < 2147483648) :
    i32 (BOOT_SIZE + SUPER_SIZE + i32 x) = 1024 + x := by
  have hx : i32 x = x := Lib.i32_of_range (by omega) (by omega)
  rw [hx, show BOOT_SIZE + SUPER_SIZE = 1024 from rfl]
  exact Lib.i32_of_range (by omega) (by omega)

theorem records_of_offsets {x y s fileSize : Int} (hlo : 0 ≤ x) (hxy : x ≤ y)
    (hhi : y ≤ s) (hfits : 1024 + s ≤ fileSize)
    (hsize : fileSize < 2147483648) :
    (i32 (1024 + y - (1024 + x))).tdiv INODE_SIZE
      = (1024 + y - (1024 + x)) / INODE_SIZE := by
  rw [Lib.i32_of_range (by omega) (by omega)]
  exact Int.tdiv_eq_ediv_of_nonneg (by omega)

/-- The regions a well-formed image's super block describes. -/
theorem WellFormed.regions (h : WellFormed img g) :
    g.blockSize = img.int sbSize
      ∧ g.inodeBegin = 1024 + img.int sbInodeOffset * g.blockSize
      ∧ g.dataBegin = 1024 + img.int sbDataOffset * g.blockSize
      ∧ g.numInode = (g.dataBegin - g.inodeBegin) / INODE_SIZE := by
  have hread := h.read
  unfold readRegions at hread
  simp only [Option.bind_eq_bind, Option.bind_eq_some_iff,
    Option.some.injEq] at hread
  obtain ⟨bs, hbs, io, hio, d, hd, hg⟩ := hread
  have hbs := (Buffer.loadInt_eq_some hbs).2
  have hio := (Buffer.loadInt_eq_some hio).2
  have hd := (Buffer.loadInt_eq_some hd).2
  have hblock : g.blockSize = bs := by rw [← hg]
  have hinode : g.inodeBegin = i32 (BOOT_SIZE + SUPER_SIZE + i32 (io * bs)) := by
    rw [← hg]
  have hdata : g.dataBegin = i32 (BOOT_SIZE + SUPER_SIZE + i32 (d * bs)) := by
    rw [← hg]
  have hnum : g.numInode
      = (i32 (g.dataBegin - g.inodeBegin)).tdiv INODE_SIZE := by
    rw [← hg]
  have hi := h.offset_range h.inode_offset (h.data_offset.trans h.swap_offset)
  have hda := h.offset_range (h.inode_offset.trans h.data_offset) h.swap_offset
  have hmono := Int.mul_le_mul_of_nonneg_right h.data_offset
    (Int.le_of_lt h.block_pos)
  have hfits := h.fits
  rw [← hblock, hio, base_of_offset hi.1 hi.2 hfits h.fileSize] at hinode
  rw [← hblock, hd, base_of_offset hda.1 hda.2 hfits h.fileSize] at hdata
  refine ⟨hblock.trans hbs, hinode, hdata, ?_⟩
  rw [hnum, hinode, hdata]
  exact records_of_offsets hi.1 hmono hda.2 hfits h.fileSize

theorem WellFormed.bounds (h : WellFormed img g) :
    Bounds g img.size g.numIntInBlock := by
  obtain ⟨-, hinode, hdata, hnum⟩ := h.regions
  obtain ⟨m, hm⟩ := h.block_ints
  have hpos := h.block_pos
  have hi := h.offset_range h.inode_offset (h.data_offset.trans h.swap_offset)
  have hda := h.offset_range (h.inode_offset.trans h.data_offset) h.swap_offset
  have hmono := Int.mul_le_mul_of_nonneg_right h.data_offset
    (Int.le_of_lt h.block_pos)
  have hfits := h.fits
  have hn : g.numIntInBlock = m.toNat := by
    unfold Regions.numIntInBlock
    rw [hm, Int.mul_tdiv_cancel_left m (by decide)]
  simp only [INT_SIZE] at hm
  have hdiv := Int.ediv_mul_le (g.dataBegin - g.inodeBegin)
    (show INODE_SIZE ≠ 0 by decide)
  have hnonneg := Int.ediv_nonneg (show 0 ≤ g.dataBegin - g.inodeBegin by omega)
    (show 0 ≤ INODE_SIZE by decide)
  refine ⟨by rw [hn]; omega, by rw [hn]; omega, rfl, by omega, ?_, ?_, by omega,
    h.fileSize⟩
  · rw [hnum, Int.mul_comm]
    omega
  · rw [hnum]
    exact hnonneg

-- ============================================================== examples

/-- One inode, whose two data blocks lie in the wrong order in a data
region of two. -/
def sample : Buffer :=
  [(sbSize, 4), (sbDataOffset, 25), (sbSwapOffset, 27), (1024 + nlink, 1),
    (1024 + size, 8), (1024 + dblocks, 1), (1024 + dblocks + INT_SIZE, 0),
    (1124, 7), (1128, 9)].foldl (fun img p => img.putInt p.1 p.2)
    (Buffer.zero 1132)

def sampleRegions : Regions := ⟨4, 1024, 1124, 1⟩

theorem sample_wellFormed : WellFormed sample sampleRegions := by
  constructor <;> decide +kernel

/-- A file of two blocks in the wrong order, with two free blocks behind
them. -/
def roomy : Buffer :=
  [(sbSize, 512), (sbDataOffset, 1), (sbSwapOffset, 5), (1024 + nlink, 1),
    (1024 + size, 1024), (1024 + dblocks, 1), (1024 + dblocks + INT_SIZE, 0),
    (1536, 7), (2048, 9)].foldl (fun img p => img.putInt p.1 p.2)
    (Buffer.zero 3584)

def roomyRegions : Regions := ⟨512, 1024, 1536, 5⟩

theorem roomy_wellFormed : WellFormed roomy roomyRegions := by
  constructor <;> decide +kernel

end OperatingSystem.Defrag
