/-
The steps behind the inode loop: the free list, and the copy of the swap
region.

# The overlap

The swap region starts at `1024 + swap_offset * BLOCK_SIZE`, behind boot
block and super block like every region, but the last `memcpy` starts at
`swap_offset * BLOCK_SIZE`. It puts the ORIGINAL bytes of `whole_buffer`
back over the 1024 bytes before the swap region. As long as 1024 bytes at
the end of the data region are free this only hits free blocks (which loses
links of the free list); on a fuller disk it hits blocks of files, or even
inode records, and these survive only where they happen to hold the old
bytes already (`tail_keeps_iff`).
-/
import OperatingSystem.Defrag.Compaction

namespace OperatingSystem.Defrag

open Lib (Buffer i32)

variable {g : Regions} {whole : Buffer} {s : State} {n : Nat}

-- ========================================================== the statement

/-- A byte of an inode record, or of a data-region block numbered below
`block_index`, which becomes `sb->free_block`. -/
def Taken (g : Regions) (whole : Buffer) (s : State) (x : Int) : Prop :=
  (∃ i < g.numInode.toNat, g.inode i ≤ x ∧ x < g.inode i + INODE_SIZE)
    ∨ ∃ b, 0 ≤ b ∧ b < s.blockIndex
        ∧ b < whole.int sbSwapOffset - whole.int sbDataOffset
        ∧ g.blockAt b ≤ x ∧ x < g.blockAt (b + 1)

/-- `dest` holds every taken byte as the inode loop left it. -/
def TailKeeps (g : Regions) (whole : Buffer) (s : State) (dest : Buffer) :
    Prop :=
  ∀ x, Taken g whole s x → dest.byte x = s.dest.byte x

/-- Every taken byte from `swap_offset * BLOCK_SIZE` on holds what
`whole_buffer` holds there. -/
def OverlapUnmoved (g : Regions) (whole : Buffer) (s : State) : Prop :=
  ∀ x, Taken g whole s x → whole.int sbSwapOffset * g.blockSize ≤ x →
    s.dest.byte x = whole.byte x

-- =========================================================== the free list

/-- The data region ends where the swap region starts. -/
theorem WellFormed.blockAt_end (h : WellFormed whole g) :
    g.blockAt (whole.int sbSwapOffset - whole.int sbDataOffset)
      = 1024 + whole.int sbSwapOffset * g.blockSize := by
  unfold Regions.blockAt
  rw [h.regions.2.2.1]
  ring

/-- How many blocks the data region has is an `int`. -/
theorem WellFormed.blocks_range (h : WellFormed whole g) :
    0 ≤ whole.int sbSwapOffset - whole.int sbDataOffset
      ∧ i32 (whole.int sbSwapOffset - whole.int sbDataOffset)
        = whole.int sbSwapOffset - whole.int sbDataOffset := by
  have hdata := h.inode_offset.trans h.data_offset
  have hswap := h.swap_offset
  have hlt := whole.int_lt sbSwapOffset
  exact ⟨by omega, Lib.i32_of_range (by omega) (by omega)⟩

/-- Everything the defragmenter puts into a block lies behind the super
block. -/
theorem WellFormed.super_lt (h : WellFormed whole g) {b : Int} (hb : 0 ≤ b) :
    1024 ≤ g.blockAt b ∧ 1024 ≤ whole.size := by
  have hB := h.bounds
  have hdata := hB.data_le hb
  have hle := hB.data
  have hinode := hB.inode
  have hrec := hB.records
  have hnum := hB.inodes
  unfold INODE_SIZE at hrec
  omega

/-- A block of the data region lies before the swap region. -/
theorem WellFormed.block_fits (h : WellFormed whole g) {b : Int}
    (hlt : b < whole.int sbSwapOffset - whole.int sbDataOffset) :
    g.blockAt b + g.blockSize ≤ 1024 + whole.int sbSwapOffset * g.blockSize := by
  have hend := h.bounds.blockAt_mono (Int.add_one_le_of_lt hlt)
  rwa [h.blockAt_end, blockAt_succ] at hend

/-- Its first word can be written. -/
theorem WellFormed.word_within (h : WellFormed whole g) {dest : Buffer}
    (hsize : dest.size = whole.size) {b : Int} (hlo : 0 ≤ b)
    (hlt : b < whole.int sbSwapOffset - whole.int sbDataOffset) :
    dest.Within (g.blockAt b) 4 := by
  have hsuper := (h.super_lt hlo).1
  have hend := h.block_fits hlt
  have hfits := h.fits
  have hints := h.bounds.ints
  have hn := h.bounds.pos
  exact ⟨by omega, by omega, by omega⟩

theorem within_super {dest : Buffer} (hsize : 1024 ≤ dest.size) :
    dest.loadInt sbSwapOffset = some (dest.int sbSwapOffset)
      ∧ dest.loadInt sbDataOffset = some (dest.int sbDataOffset) := by
  have h : dest.Within sbSwapOffset 4 ∧ dest.Within sbDataOffset 4 := by
    simp only [Buffer.Within, sbSwapOffset, sbDataOffset, BOOT_SIZE]
    omega
  exact ⟨Buffer.loadInt_of_within h.1, Buffer.loadInt_of_within h.2⟩

/-- The free-list loop succeeds and writes only blocks from `i` on. -/
theorem freeBlocksFrom_spec (hwf : WellFormed whole g) :
    ∀ (fuel : Nat) (i : Int) (dest : Buffer), dest.size = whole.size →
      0 ≤ i → dest.int sbSwapOffset = whole.int sbSwapOffset →
      dest.int sbDataOffset = whole.int sbDataOffset →
      ∃ dest', freeBlocksFrom g fuel i dest = some dest'
        ∧ dest'.size = whole.size
        ∧ ∀ x, x < g.blockAt i → dest'.byte x = dest.byte x := by
  have hB := hwf.bounds
  have hpos := hB.block_pos
  intro fuel
  induction fuel with
  | zero => intro i dest hsize _ _ _; exact ⟨dest, rfl, hsize, fun _ _ => rfl⟩
  | succ fuel ih =>
      intro i dest hsize hi hswap hdata
      obtain ⟨hsuper, hlarge⟩ := hwf.super_lt hi
      obtain ⟨hload, hload'⟩ := within_super (show 1024 ≤ dest.size by omega)
      unfold freeBlocksFrom
      rw [hload, hload', hswap, hdata, Option.bind_eq_bind, Option.bind_some,
        Option.bind_some, hwf.blocks_range.2]
      split
      case isFalse => exact ⟨dest, rfl, hsize, fun _ _ => rfl⟩
      case isTrue hlt =>
        have hstore := hwf.block_eq hi hlt
        have hlast := whole.int_lt sbSwapOffset
        have hdata' := hwf.inode_offset.trans hwf.data_offset
        rw [Lib.i32_of_range (n := i + 1) (by omega) (by omega)]
        generalize hv : (if i = i32 (whole.int sbSwapOffset - 1) then -1
          else i + 1) = v
        have hin : dest.Within (g.block i) 4 := by
          rw [hstore]
          exact hwf.word_within hsize hi hlt
        rw [Buffer.storeInt_of_within hin, hstore]
        obtain ⟨dest', hrun, hsize', hkeep⟩ := ih (i + 1)
          (dest.putInt (g.blockAt i) v) hsize (by omega)
          (by rw [Buffer.putInt_int_outside, hswap]
              simp only [sbSwapOffset, BOOT_SIZE]; omega)
          (by rw [Buffer.putInt_int_outside, hdata]
              simp only [sbDataOffset, BOOT_SIZE]; omega)
        refine ⟨dest', hrun, hsize', fun x hx => ?_⟩
        rw [hkeep x (by rw [blockAt_succ]; omega),
          Buffer.putInt_byte_outside (.inl hx)]

/-- The super block is still the image's when the loop is done. -/
theorem super_kept {i₀ : Nat} {start : Nat → Int}
    (hwf : WellFormed whole g) (hp : Progress g whole n i₀ start s) :
    s.dest.int sbSwapOffset = whole.int sbSwapOffset
      ∧ s.dest.int sbDataOffset = whole.int sbDataOffset := by
  have hinode := hwf.bounds.inode
  constructor
  · exact Buffer.int_congr (hp.before.mono
      (by simp only [sbSwapOffset, BOOT_SIZE]; omega)
      (by simp only [sbSwapOffset, BOOT_SIZE]; omega))
  · exact Buffer.int_congr (hp.before.mono
      (by simp only [sbDataOffset, BOOT_SIZE]; omega)
      (by simp only [sbDataOffset, BOOT_SIZE]; omega))

/-- Building the free list changes `free_block` and free blocks only. -/
theorem buildFreeList_spec {i₀ : Nat} {start : Nat → Int}
    (hwf : WellFormed whole g) (hp : Progress g whole n i₀ start s) :
    ∃ dest, buildFreeList g s = some dest ∧ dest.size = whole.size
      ∧ dest.int sbSwapOffset = whole.int sbSwapOffset
      ∧ ∀ x, x < sbFreeBlock ∨ sbFreeBlock + 4 ≤ x →
          x < g.blockAt s.blockIndex → dest.byte x = s.dest.byte x := by
  obtain ⟨hswap, hdata⟩ := super_kept hwf hp
  obtain ⟨hsuper, hlarge⟩ := hwf.super_lt hp.sane.index
  have hsize := hp.sane.size
  have hin : s.dest.Within sbFreeBlock 4 := by
    simp only [Buffer.Within, sbFreeBlock, BOOT_SIZE]
    omega
  obtain ⟨dest, hrun, hsize', hkeep⟩ := freeBlocksFrom_spec hwf
    (2 ^ 31 - s.blockIndex).toNat s.blockIndex
    (s.dest.putInt sbFreeBlock s.blockIndex) hsize hp.sane.index
    (by rw [Buffer.putInt_int_outside, hswap]
        simp only [sbSwapOffset, sbFreeBlock, BOOT_SIZE]; omega)
    (by rw [Buffer.putInt_int_outside, hdata]
        simp only [sbDataOffset, sbFreeBlock, BOOT_SIZE]; omega)
  refine ⟨dest, ?_, hsize', ?_, fun x hout hx => ?_⟩
  · unfold buildFreeList
    rw [Buffer.storeInt_of_within hin, Option.bind_eq_bind, Option.bind_some]
    exact hrun
  · rw [← hswap]
    refine Buffer.int_congr fun x hlo hhi => ?_
    simp only [sbSwapOffset, BOOT_SIZE] at hlo hhi
    rw [hkeep x (by omega), Buffer.putInt_byte_outside]
    simp only [sbFreeBlock, BOOT_SIZE]
    omega
  · rw [hkeep x hx, Buffer.putInt_byte_outside hout]

-- ======================================================= the swap region

/-- The copy's offset and length are what the program means to compute. -/
theorem WellFormed.swap_base (h : WellFormed whole g) :
    0 ≤ whole.int sbSwapOffset * g.blockSize
      ∧ i32 (whole.int sbSwapOffset * g.blockSize)
        = whole.int sbSwapOffset * g.blockSize
      ∧ i32 (whole.size - whole.int sbSwapOffset * g.blockSize)
        = whole.size - whole.int sbSwapOffset * g.blockSize := by
  have hfits := h.fits
  have hmax := h.fileSize
  obtain ⟨hlo, -⟩ := h.offset_range
    ((h.inode_offset.trans h.data_offset).trans h.swap_offset)
    (Int.le_refl _)
  exact ⟨hlo, Lib.i32_of_range (by omega) (by omega),
    Lib.i32_of_range (by omega) (by omega)⟩

/-- The last copy succeeds and puts the source's bytes back from
`swap_offset * BLOCK_SIZE` on. -/
theorem copySwap_spec (hwf : WellFormed whole g) {dest : Buffer}
    (hsize : dest.size = whole.size)
    (hswap : dest.int sbSwapOffset = whole.int sbSwapOffset) :
    ∃ dest', copySwap g whole dest = some dest' ∧ dest'.size = whole.size
      ∧ ∀ x, x < whole.size → dest'.byte x
        = if whole.int sbSwapOffset * g.blockSize ≤ x
          then whole.byte x else dest.byte x := by
  have hfits := hwf.fits
  have hlarge := (hwf.super_lt (Int.le_refl 0)).2
  obtain ⟨hlo, hbase, hlen⟩ := hwf.swap_base
  have hrun : copySwap g whole dest
      = dest.memcpy (whole.int sbSwapOffset * g.blockSize) whole
        (whole.int sbSwapOffset * g.blockSize)
        (whole.size - whole.int sbSwapOffset * g.blockSize) := by
    unfold copySwap
    rw [(within_super (show 1024 ≤ dest.size by omega)).1,
      Option.bind_eq_bind, Option.bind_some, hswap, hbase]
    exact congrArg
      (dest.memcpy (whole.int sbSwapOffset * g.blockSize) whole
        (whole.int sbSwapOffset * g.blockSize)) hlen
  rw [hrun]
  clear hrun hbase hlen
  generalize whole.int sbSwapOffset * g.blockSize = base at *
  rw [Buffer.memcpy_of_within ⟨hlo, by omega, by omega⟩
    ⟨hlo, by omega, by omega⟩]
  refine ⟨_, rfl, hsize, fun x hx => ?_⟩
  by_cases hle : base ≤ x
  · rw [if_pos hle, Buffer.blit_byte_inside hle (by omega)]
    congr 1
    omega
  · rw [if_neg hle, Buffer.blit_byte_outside (.inl (by omega))]

/-- Where the taken bytes can be. -/
theorem taken_range {i₀ : Nat} {start : Nat → Int} {x : Int}
    (hwf : WellFormed whole g) (hp : Progress g whole n i₀ start s)
    (hx : Taken g whole s x) :
    1024 ≤ x ∧ x < g.blockAt s.blockIndex ∧ x < whole.size := by
  have hB := hwf.bounds
  have hroom := hp.sane.room
  rcases hx with ⟨i, hi, hlo, hhi⟩ | ⟨b, hb, hlt, -, hlo, hhi⟩
  · have hrange := hB.inode_range hi
    have hdata := hB.data_le hp.sane.index
    have hinode := hB.inode
    omega
  · have hsuper := (hwf.super_lt hb).1
    have hmono := hB.blockAt_mono (Int.add_one_le_of_lt hlt)
    omega

/-- With 1024 bytes to spare in the data region nothing taken overlaps. -/
theorem overlapUnmoved_of_room (hwf : WellFormed whole g)
    (hrun : inodeLoop g whole = some s)
    (hroom : s.blockIndex * g.blockSize + 1024
      ≤ (whole.int sbSwapOffset - whole.int sbDataOffset) * g.blockSize) :
    OverlapUnmoved g whole s := by
  intro x hx hle
  obtain ⟨start, hp⟩ := inodeLoop_spec hwf.bounds hrun
  obtain ⟨-, hlt, -⟩ := taken_range hwf hp hx
  have hend := hwf.blockAt_end
  unfold Regions.blockAt at hlt hend
  omega

/-- The tail of `main` always succeeds, and it leaves the inode records and
the blocks below `free_block` as the loop left them if and only if the
taken bytes from `swap_offset * BLOCK_SIZE` on hold their old values
anyway. -/
theorem tail_keeps_iff (hwf : WellFormed whole g)
    (hrun : inodeLoop g whole = some s) :
    ∃ dest, afterLoop g whole s = some dest
      ∧ (TailKeeps g whole s dest ↔ OverlapUnmoved g whole s) := by
  obtain ⟨start, hp⟩ := inodeLoop_spec hwf.bounds hrun
  obtain ⟨dest₁, hfree, hsize, hswap, hkeep⟩ := buildFreeList_spec hwf hp
  obtain ⟨dest, hcopy, -, hbytes⟩ := copySwap_spec hwf hsize hswap
  refine ⟨dest, ?_, ?_⟩
  · unfold afterLoop
    rw [hfree, Option.bind_eq_bind, Option.bind_some]
    exact hcopy
  have hafter : ∀ x, Taken g whole s x → dest.byte x
      = if whole.int sbSwapOffset * g.blockSize ≤ x
        then whole.byte x else s.dest.byte x := by
    intro x hx
    obtain ⟨hlo, hroom, hin⟩ := taken_range hwf hp hx
    rw [hbytes x hin, hkeep x (.inr (by
      simp only [sbFreeBlock, BOOT_SIZE]; omega)) hroom]
  constructor
  · intro hall x hx hover
    rw [← hall x hx, hafter x hx, if_pos hover]
  · intro hover x hx
    rw [hafter x hx]
    split
    case isTrue hle => exact (hover x hx hle).symm
    case isFalse => rfl

/-- The loop swaps the two data blocks of the file in the full region. -/
theorem sample_swapped (hrun : inodeLoop sampleRegions sample = some s) :
    Taken sampleRegions sample s 1124 ∧ s.dest.byte 1124 = 9 := by
  have hread : (inodeLoop sampleRegions sample).map
      (fun s => (s.blockIndex, s.dest.byte 1124)) = some (2, 9) := by
    decide +kernel
  rw [hrun, Option.map_some, Option.some.injEq, Prod.mk.injEq] at hread
  obtain ⟨hindex, hbyte⟩ := hread
  exact ⟨.inr ⟨0, by decide, by omega, by decide +kernel, by decide,
    by decide⟩, hbyte⟩

/-- The theorem for the two examples. With 1024 bytes to spare the tail keeps
the blocks that the loop has swapped; in the full region it does not. -/
theorem tail_keeps_iff_examples :
    (∃ s dest, inodeLoop roomyRegions roomy = some s
      ∧ s.dest.byte 1536 ≠ roomy.byte 1536
      ∧ afterLoop roomyRegions roomy s = some dest
      ∧ OverlapUnmoved roomyRegions roomy s
      ∧ TailKeeps roomyRegions roomy s dest)
    ∧ ∃ s dest, inodeLoop sampleRegions sample = some s
      ∧ afterLoop sampleRegions sample s = some dest
      ∧ ¬OverlapUnmoved sampleRegions sample s
      ∧ ¬TailKeeps sampleRegions sample s dest := by
  constructor
  · obtain ⟨s, hrun⟩ : ∃ s, inodeLoop roomyRegions roomy = some s :=
      Option.isSome_iff_exists.mp (by decide +kernel)
    have hread : (inodeLoop roomyRegions roomy).map
        (fun s => (s.blockIndex, s.dest.byte 1536)) = some (2, 9) := by
      decide +kernel
    rw [hrun, Option.map_some, Option.some.injEq, Prod.mk.injEq] at hread
    obtain ⟨hindex, hbyte⟩ := hread
    have hroom := overlapUnmoved_of_room roomy_wellFormed hrun
      (by rw [hindex]; decide +kernel)
    obtain ⟨dest, htail, hiff⟩ := tail_keeps_iff roomy_wellFormed hrun
    refine ⟨s, dest, hrun, ?_, htail, hroom, hiff.mpr hroom⟩
    rw [hbyte]
    decide +kernel
  · obtain ⟨s, hrun⟩ : ∃ s, inodeLoop sampleRegions sample = some s :=
      Option.isSome_iff_exists.mp (by decide +kernel)
    obtain ⟨htaken, hbyte⟩ := sample_swapped hrun
    have hmoved : ¬OverlapUnmoved sampleRegions sample s := by
      intro hsame
      have hold := hsame 1124 htaken (by decide +kernel)
      rw [hbyte] at hold
      exact absurd hold (by decide +kernel)
    obtain ⟨dest, htail, hiff⟩ := tail_keeps_iff sample_wellFormed hrun
    exact ⟨s, dest, hrun, htail, hmoved, hmoved ∘ hiff.mp⟩

/-- In the example the last copy puts the old contents of the first block
back. -/
theorem tail_overwrites : ¬ ∀ whole g s dest, WellFormed whole g →
    inodeLoop g whole = some s → afterLoop g whole s = some dest →
    TailKeeps g whole s dest := by
  intro h
  obtain ⟨s, hrun⟩ : ∃ s, inodeLoop sampleRegions sample = some s :=
    Option.isSome_iff_exists.mp (by decide +kernel)
  obtain ⟨htaken, hbyte⟩ := sample_swapped hrun
  have hread : ((inodeLoop sampleRegions sample).bind fun s =>
      (afterLoop sampleRegions sample s).map fun dest => dest.byte 1124)
      = some 7 := by
    decide +kernel
  rw [hrun, Option.bind_some, Option.map_eq_some_iff] at hread
  obtain ⟨dest, htail, hold⟩ := hread
  have hkeep := h sample sampleRegions s dest sample_wellFormed hrun htail
    1124 htaken
  rw [hold, hbyte] at hkeep
  exact absurd hkeep (by decide)

end OperatingSystem.Defrag
