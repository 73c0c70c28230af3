/-
What the defragmenter keeps: the file system.

# The file system of an image

An inode in use is a file: its record before the pointers, and as many bytes
as its size says, read block by block through the pointers. `fileSystem` is
all of it, starting from the super block alone. Which blocks a file lies in
is not part of it, and that is all a pass may change.

# Any number of passes

With 1024 bytes to spare in the data region one pass leaves an image that is
well formed, that has room again and that a further pass can read
(`Settled.runs`), so the passes go on for ever, and every image on the way
holds the same files.
-/
import OperatingSystem.Defrag.DataFile
import OperatingSystem.Defrag.FreeList
import OperatingSystem.Defrag.Idempotent

namespace OperatingSystem.Defrag

open Lib (Buffer MirrorRoots consecutive)

variable {g : Regions} {whole dest img : Buffer} {s : State} {i k : Nat}

-- ======================================================= the file system

/-- What the file of the inode at `curr` reads as. -/
def contents (g : Regions) (img : Buffer) (curr : Int) : List UInt8 :=
  ((List.range (fileLength g img curr)).flatMap (logicalBytes g img curr)).take
    (img.int (curr + size)).toNat

/-- A file, wherever its blocks are: `header` is its inode's record before
the pointers. -/
structure File where
  header : List UInt8
  contents : List UInt8
  deriving DecidableEq, Repr

/-- The file of inode `i`. -/
def fileAt (g : Regions) (img : Buffer) (i : Nat) : Option File :=
  if Live img (g.inode i) then
    some ⟨img.slice (g.inode i) dblocks, contents g img (g.inode i)⟩
  else none

/-- The files of an image, inode after inode. -/
def fileSystem (img : Buffer) : Option (List (Option File)) :=
  (readRegions img).map fun g =>
    (List.range g.numInode.toNat).map (fileAt g img)

/-- Every block that is needed can be found. -/
theorem WellFormed.resolved (h : WellFormed img g) (hi : i ∈ liveInodes g img)
    (hk : k < fileLength g img (g.inode i)) :
    ∃ b, resolve g img (g.inode i) k = some b := by
  have hleaves := Lib.leavesRoots_eq (child g img) h.bounds.pos
    (roots img (g.inode i)) (fileLength g img (g.inode i))
  rw [Nat.min_eq_left (h.length_le hi)] at hleaves
  have hmem := List.mem_map_of_mem
    (f := Lib.resolveRoots (child g img) g.numIntInBlock
      (roots img (g.inode i))) (List.mem_range.mpr hk)
  rw [← hleaves] at hmem
  obtain ⟨b, -, hb⟩ := List.mem_map.mp hmem
  exact ⟨b, hb.symm⟩

theorem WellFormed.logicalBytes_length (h : WellFormed img g)
    (hi : i ∈ liveInodes g img) (hk : k < fileLength g img (g.inode i)) :
    (logicalBytes g img (g.inode i) k).length = g.blockSize.toNat := by
  obtain ⟨b, hb⟩ := h.resolved hi hk
  unfold logicalBytes
  rw [hb]
  simp [Buffer.slice]

/-- The blocks of a file hold its bytes. -/
theorem Regions.size_le (g : Regions) (hpos : 0 < g.blockSize) {fileSize : Int}
    (hlo : 0 ≤ fileSize) :
    fileSize ≤ ((g.blocksFor fileSize * g.blockSize.toNat : Nat) : Int) := by
  have hnonneg := Int.ediv_nonneg
    (show 0 ≤ fileSize + g.blockSize - 1 by omega) (Int.le_of_lt hpos)
  have hlt := Int.lt_ediv_add_one_mul_self (fileSize + g.blockSize - 1) hpos
  rw [Int.add_mul] at hlt
  unfold Regions.blocksFor
  push_cast
  rw [Int.toNat_of_nonneg hnonneg, Int.toNat_of_nonneg (Int.le_of_lt hpos)]
  omega

theorem take_length {bytes : List UInt8} {fileSize : Int} (hlo : 0 ≤ fileSize)
    (hle : fileSize ≤ bytes.length) :
    ((bytes.take fileSize.toNat).length : Int) = fileSize := by
  rw [List.length_take]
  omega

/-- A file reads as many bytes as its size says. -/
theorem WellFormed.contents_length (h : WellFormed img g)
    (hi : i ∈ liveInodes g img) :
    ((contents g img (g.inode i)).length : Int)
      = img.int (g.inode i + size) := by
  obtain ⟨hsize, -⟩ := h.sizes i hi
  have hlen : ((List.range (fileLength g img (g.inode i))).flatMap
      (logicalBytes g img (g.inode i))).length
        = fileLength g img (g.inode i) * g.blockSize.toNat := by
    rw [List.length_flatMap, List.map_congr_left fun k hk =>
      h.logicalBytes_length hi (List.mem_range.mp hk), List.map_const',
      List.sum_replicate_nat, List.length_range]
  have hblocks := g.size_le h.block_pos hsize
  rw [show g.blocksFor (img.int (g.inode i + size))
    = fileLength g img (g.inode i) by rw [fileLength], ← hlen] at hblocks
  unfold contents
  exact take_length hsize hblocks

-- ============================================================== one pass

/-- A settled image holds its files as the program copied them. -/
theorem Settled.mirror (h : Settled g whole s dest)
    (hi : i ∈ liveInodes g whole) :
    MirrorRoots (SameBlock g whole dest) (child g whole) (child g dest)
      g.numIntInBlock (roots whole (g.inode i)) (roots dest (g.inode i))
      (takenBefore g whole g.numIntInBlock i)
      (fileLength g whole (g.inode i)) := by
  obtain ⟨hlt, hlive⟩ := mem_liveInodes.mp hi
  exact (h.placed hlt hlive).1.exactly h.source hi

theorem Settled.logicalBytes (h : Settled g whole s dest)
    (hi : i ∈ liveInodes g whole)
    (hk : k < fileLength g whole (g.inode i)) :
    logicalBytes g dest (g.inode i) k
      = Defrag.logicalBytes g whole (g.inode i) k := by
  obtain ⟨b, b', hb, hb', hsame⟩ :=
    (h.mirror hi).resolve h.source.bounds.pos hk
      (Nat.lt_of_lt_of_le hk (h.source.length_le hi))
  unfold Defrag.logicalBytes
  rw [show resolve g whole (g.inode i) k = some b from hb,
    show resolve g dest (g.inode i) k = some b' from hb']
  exact hsame

theorem Settled.contents (h : Settled g whole s dest)
    (hi : i ∈ liveInodes g whole) :
    contents g dest (g.inode i) = Defrag.contents g whole (g.inode i) := by
  obtain ⟨hlt, -⟩ := mem_liveInodes.mp hi
  unfold Defrag.contents
  rw [h.inodes.fileSize hlt, h.inodes.length hlt,
    List.flatMap_congr fun k hk => h.logicalBytes hi (List.mem_range.mp hk)]

theorem Settled.fileAt (h : Settled g whole s dest)
    (hi : i < g.numInode.toNat) :
    fileAt g dest i = Defrag.fileAt g whole i := by
  unfold Defrag.fileAt
  by_cases hlive : Live whole (g.inode i)
  · have hheader : dest.slice (g.inode i) dblocks
        = whole.slice (g.inode i) dblocks :=
      Buffer.slice_congr fun x hx hx' =>
        h.header hi _ (by omega) (by omega)
    rw [if_pos hlive, if_pos ((h.inodes.live hi).mpr hlive), hheader,
      h.contents (mem_liveInodes.mpr ⟨hi, hlive⟩)]
  · rw [if_neg hlive, if_neg (mt (h.inodes.live hi).mp hlive)]

/-- One pass keeps the file system. -/
theorem Settled.fileSystem (h : Settled g whole s dest) :
    fileSystem dest = Defrag.fileSystem whole := by
  unfold Defrag.fileSystem
  rw [h.wellFormed.read, h.source.read, Option.map_some, Option.map_some,
    List.map_congr_left fun i hi => h.fileAt (List.mem_range.mp hi)]

/-- How the files lie after a pass: each in one piece, one after the other,
and all of them before the free blocks. -/
structure Compact (g : Regions) (img : Buffer) : Prop where
  contiguous : ∀ i ∈ liveInodes g img, ∃ first,
    fileBlocks g img (g.inode i)
      = consecutive first (fileBlocks g img (g.inode i)).length
  ascending : ((liveInodes g img).flatMap fun i =>
    fileBlocks g img (g.inode i)).Pairwise (· < ·)
  below : ∀ i ∈ liveInodes g img, ∀ b ∈ fileBlocks g img (g.inode i),
    0 ≤ b ∧ b < img.int sbFreeBlock

theorem consecutive_ascending (start : Int) (len : Nat) :
    (consecutive start len).Pairwise (· < ·) := by
  refine List.pairwise_map.mpr (List.pairwise_lt_range.imp fun h => ?_)
  omega

theorem Settled.ascending (h : Settled g whole s dest) :
    ((liveInodes g whole).flatMap fun i =>
      Defrag.fileBlocks g dest (g.inode i)).Pairwise (· < ·) := by
  rw [List.pairwise_flatMap]
  refine ⟨fun i hi => ?_, ?_⟩
  · rw [h.fileBlocks hi]
    exact consecutive_ascending _ _
  have hsorted : (liveInodes g whole).Pairwise (· < ·) :=
    List.Pairwise.filter _ List.pairwise_lt_range
  refine List.Pairwise.imp_of_mem (fun {i j} hi hj hij b hb c hc => ?_) hsorted
  have hordered := h.counted.progress.ordered i j hij
    (mem_liveInodes.mp hj).1 (mem_liveInodes.mp hi).2 (mem_liveInodes.mp hj).2
  rw [h.fileBlocks hi] at hb
  rw [h.fileBlocks hj] at hc
  obtain ⟨-, hend⟩ := consecutive_range hb
  obtain ⟨hstart, -⟩ := consecutive_range hc
  omega

theorem Settled.compact (h : Settled g whole s dest)
    (hfree : dest.int sbFreeBlock = s.blockIndex) : Compact g dest := by
  constructor <;> rw [h.inodes.liveInodes]
  case contiguous =>
    intro i hi
    refine ⟨takenBefore g whole g.numIntInBlock i, ?_⟩
    rw [h.fileBlocks hi, Lib.consecutive_length]
  case ascending => exact h.ascending
  case below =>
    intro i hi b hb
    rw [hfree]
    exact h.inRange hi hb

-- ============================================================ every pass

/-- The last 1024 bytes of the data region stay free. -/
def HasRoom (g : Regions) (img : Buffer) : Prop :=
  blocksTaken g img * g.blockSize + 1024 ≤ dataBlocks img * g.blockSize

/-- A pass over an image with room. -/
theorem settled_of_defrag {data : List UInt8} (hwf : WellFormed whole g)
    (hroom : HasRoom g whole) (h : defrag whole = some (dest, data)) :
    ∃ s, Settled g whole s dest ∧ dest.int sbFreeBlock = s.blockIndex := by
  obtain ⟨s, hrun, hafter, -⟩ := (defrag_cases hwf).mp h
  have hc := inodeLoop_counted hwf.bounds hrun
  obtain ⟨out, hout, hsize, hbytes⟩ := afterLoop_eq hwf hc.progress
  obtain rfl : dest = out := Option.some.inj (hafter.symm.trans hout)
  unfold HasRoom dataBlocks at hroom
  rw [← blockIndex_eq hwf hrun] at hroom
  refine ⟨s, settled_of_room hwf hrun hroom hsize hbytes, ?_⟩
  -- with room the copy of the swap region starts behind the super block
  have hsuper := (hwf.super_lt hc.progress.sane.index).1
  have hlast : g.blockAt s.blockIndex
      ≤ whole.int sbSwapOffset * g.blockSize := hwf.room_iff.mp hroom
  rw [written_freeBlock hwf hrun hafter, if_neg]
  simp only [sbFreeBlock, BOOT_SIZE]
  omega

/-- What a pass writes can be read by the next one. -/
theorem Settled.next (h : Settled g whole s dest) :
    ∃ out data, defrag dest = some (out, data) := by
  have hwf := h.wellFormed
  obtain ⟨s', hrun, -⟩ := h.runs
  obtain ⟨out, hafter, -⟩ :=
    afterLoop_eq hwf (inodeLoop_counted hwf.bounds hrun).progress
  exact ⟨out, s'.dataFile, (defrag_cases hwf).mpr ⟨s', hrun, hafter, rfl⟩⟩

theorem Settled.hasRoom (h : Settled g whole s dest)
    (hroom : HasRoom g whole) : HasRoom g dest := by
  obtain ⟨s', hrun, hindex⟩ := h.runs
  obtain ⟨-, -, hdata, hswap⟩ := h.inodes.offsets
  unfold HasRoom dataBlocks at hroom ⊢
  rw [hdata, hswap, ← blockIndex_eq h.wellFormed hrun, hindex,
    blockIndex_eq h.source h.loop]
  exact hroom

/-- `n` passes of the defragmenter, each over the image the one before it
wrote. -/
def passes : Nat → Buffer → Option Buffer
  | 0, img => some img
  | n + 1, img => (defrag img).bind fun out => passes n out.1

/-- Any number of passes over a well-formed image with room yields a
well-formed image with the same files, each of them complete; and from the
first pass on the files lie one after the other. -/
theorem file_system_kept {data : List UInt8} (hwf : WellFormed whole g)
    (hroom : HasRoom g whole) (h : defrag whole = some (dest, data)) (n : Nat) :
    ∃ img, passes n whole = some img
      ∧ WellFormed img g
      ∧ fileSystem img = fileSystem whole
      ∧ (∀ i ∈ liveInodes g img, ((contents g img (g.inode i)).length : Int)
        = img.int (g.inode i + size))
      ∧ (0 < n → Compact g img) := by
  induction n generalizing whole dest data with
  | zero =>
      exact ⟨whole, rfl, hwf, rfl, fun i hi => hwf.contents_length hi,
        fun hn => absurd hn (Nat.lt_irrefl 0)⟩
  | succ n ih =>
      obtain ⟨s, hset, hfree⟩ := settled_of_defrag hwf hroom h
      obtain ⟨out, data', hnext⟩ := hset.next
      obtain ⟨img, hpasses, hwf', hfiles, hcomplete, hcompact⟩ :=
        ih hset.wellFormed (hset.hasRoom hroom) hnext
      refine ⟨img, ?_, hwf', hfiles.trans hset.fileSystem, hcomplete,
        fun _ => ?_⟩
      · unfold passes
        rw [h]
        exact hpasses
      · cases n with
        | zero =>
            obtain rfl : dest = img := Option.some.inj hpasses
            exact hset.compact hfree
        | succ n => exact hcompact (Nat.succ_pos n)

/-- The theorem for the example: after two passes its file still reads 9,
then 7, and the blocks with these bytes have changed places. -/
theorem file_system_kept_roomy : ∃ img, passes 2 roomy = some img
    ∧ fileSystem img = fileSystem roomy
    ∧ img.byte 1536 = 9 ∧ roomy.byte 1536 = 7 ∧ Compact roomyRegions img := by
  obtain ⟨⟨dest, data⟩, hrun⟩ : ∃ out, defrag roomy = some out :=
    Option.isSome_iff_exists.mp (by decide +kernel)
  obtain ⟨img, hpasses, -, hfiles, -, hcompact⟩ :=
    file_system_kept roomy_wellFormed (by unfold HasRoom; decide +kernel) hrun 2
  have hbyte : (passes 2 roomy).map (fun out => out.byte 1536) = some 9 := by
    decide +kernel
  rw [hpasses, Option.map_some, Option.some.injEq] at hbyte
  exact ⟨img, hpasses, hfiles, hbyte, by decide +kernel,
    hcompact (by decide)⟩

end OperatingSystem.Defrag
