/-
The free list of the image that is written out.

# What goes wrong

The loop runs over the free blocks of the data region but takes the last
one for block `swap_offset - 1`, which is right only when the data region
starts at offset 0; otherwise no block gets the terminator. Afterwards the
copy of the swap region puts the original words back into every block that
starts in the last 1024 bytes of the data region. And `free_block` is set
to `block_index` whether or not a block is left.

So the list is right when a block is free and the words that are put back
are the right ones (`FreeListDue`); with blocks of more than 1024 bytes
none are put back, and the data region must start at offset 0.
-/
import OperatingSystem.Defrag.Leak

namespace OperatingSystem.Defrag

open Lib (Buffer consecutive)

variable {g : Regions} {whole dest : Buffer} {s : State}

-- ============================================================= the chain

/-- Following the first word of each block from block `p` on visits exactly
the blocks of the list and then ends with -1. -/
def FreeChain (g : Regions) (img : Buffer) : Int → List Int → Prop
  | p, [] => p = -1
  | p, b :: rest => p = b ∧ FreeChain g img (img.int (g.blockAt b)) rest

/-- The word the chain asks of block `b` when the data region has `blocks`
blocks. -/
def nextFree (blocks b : Int) : Int := if b = blocks - 1 then -1 else b + 1

theorem consecutive_succ (start : Int) (count : Nat) :
    consecutive start (count + 1) = start :: consecutive (start + 1) count := by
  unfold consecutive
  rw [List.range_succ_eq_map, List.map_cons, List.map_map]
  simp only [Int.natCast_zero, Int.add_zero, List.cons.injEq, true_and]
  refine List.map_congr_left fun i _ => ?_
  simp only [Function.comp_apply]
  push_cast
  ring

/-- A chain over consecutive blocks is its start and its words. -/
theorem freeChain_iff (img : Buffer) : ∀ (count : Nat) (p start : Int),
    FreeChain g img p (consecutive start count)
      ↔ (p = if 0 < count then start else -1)
        ∧ ∀ b, start ≤ b → b < start + count →
          img.int (g.blockAt b) = nextFree (start + count) b := by
  intro count
  induction count with
  | zero =>
      intro p start
      constructor
      · intro h
        exact ⟨h, fun b hlo hhi => by omega⟩
      · intro h
        exact h.1
  | succ count ih =>
      intro p start
      rw [consecutive_succ, FreeChain, ih, if_pos (Nat.succ_pos count)]
      have hsum : start + 1 + (count : Int) = start + (count + 1 : Nat) := by
        push_cast
        ring
      rw [hsum]
      refine and_congr_right fun _ => ?_
      constructor
      · intro ⟨hfirst, hrest⟩ b hlo hhi
        rcases Int.lt_or_eq_of_le hlo with hlt | rfl
        · exact hrest b (by omega) hhi
        · rw [hfirst]
          unfold nextFree
          by_cases hcount : 0 < count
          · rw [if_pos hcount, if_neg (by omega)]
          · rw [if_neg hcount, if_pos (by omega)]
      · intro h
        refine ⟨?_, fun b hlo hhi => h b (by omega) hhi⟩
        rw [h start (Int.le_refl _) (by omega)]
        unfold nextFree
        by_cases hcount : 0 < count
        · rw [if_pos hcount, if_neg (by omega)]
        · rw [if_neg hcount, if_pos (by omega)]

-- ==================================================== what is written there

/-- The word of a free block in the image that is written out. -/
theorem written_link (hwf : WellFormed whole g)
    (hrun : inodeLoop g whole = some s)
    (hdest : afterLoop g whole s = some dest) {b : Int}
    (hlo : s.blockIndex ≤ b)
    (hhi : b < whole.int sbSwapOffset - whole.int sbDataOffset) :
    dest.int (g.blockAt b)
      = if whole.int sbSwapOffset * g.blockSize ≤ g.blockAt b
        then whole.int (g.blockAt b) else link (whole.int sbSwapOffset) b := by
  have hc := inodeLoop_counted hwf.bounds hrun
  obtain ⟨dest', hafter, -, hbytes⟩ := afterLoop_eq hwf hc.progress
  obtain rfl : dest' = dest := Option.some.inj (hafter.symm.trans hdest)
  have hnonneg := hc.progress.sane.index.trans hlo
  have hdvd : 4 ∣ g.blockAt b := by
    unfold Regions.blockAt
    rw [hwf.regions.2.2.1]
    exact Int.dvd_add (Int.dvd_add (by decide)
      (Dvd.dvd.mul_left hwf.block_ints _)) (Dvd.dvd.mul_left hwf.block_ints _)
  rw [written_int hwf hbytes hdvd (hwf.word_within rfl hnonneg hhi).2.2]
  have hlast := whole.int_lt sbSwapOffset
  have hdata := hwf.inode_offset.trans hwf.data_offset
  have hlink : (linked g whole s).int (g.blockAt b)
      = link (whole.int sbSwapOffset) b := by
    unfold linked
    rw [freeLinks_int hwf _ _ _ _ hlo (by
      have := toNat_range (i := s.blockIndex)
        (e := whole.int sbSwapOffset - whole.int sbDataOffset)
      exact hhi.trans_le this.1)]
    unfold link
    refine Lib.i32_of_range ?_ ?_ <;> split <;> omega
  rw [hlink]

-- =============================================================== the result

/-- The blocks that are taken and the blocks there are. -/
def blocksTaken (g : Regions) (whole : Buffer) : Int :=
  blocksNeeded g whole + sparesTaken g whole

def dataBlocks (whole : Buffer) : Int :=
  whole.int sbSwapOffset - whole.int sbDataOffset

/-- What the original image must be like for the free list to come out
right: a block is free; what the copy of the swap region covers (the field
`free_block` of a very small image, the free blocks in the last 1024 bytes
of the data region) was right before; and if the copy covers no block, the
data region starts at offset 0. -/
structure FreeListDue (g : Regions) (whole : Buffer) : Prop where
  room : sbFreeBlock < whole.int sbSwapOffset * g.blockSize →
    blocksTaken g whole < dataBlocks whole
  head : whole.int sbSwapOffset * g.blockSize ≤ sbFreeBlock →
    whole.int sbFreeBlock
      = if blocksTaken g whole < dataBlocks whole then blocksTaken g whole
        else -1
  words : ∀ b, blocksTaken g whole ≤ b → b < dataBlocks whole →
    whole.int sbSwapOffset * g.blockSize ≤ g.blockAt b →
    whole.int (g.blockAt b) = nextFree (dataBlocks whole) b
  last : 1024 < g.blockSize → blocksTaken g whole < dataBlocks whole →
    whole.int sbDataOffset = 0

/-- The terminator goes to the wrong block unless the data region starts at
offset 0. -/
theorem link_eq_nextFree {swapOffset dataOffset b : Int} (hdata : 0 ≤ dataOffset)
    (hb : 0 ≤ b) (hlt : b < swapOffset - dataOffset) :
    link swapOffset b = nextFree (swapOffset - dataOffset) b
      ↔ (b = swapOffset - dataOffset - 1 → dataOffset = 0) := by
  unfold link nextFree
  split_ifs <;> omega

/-- Where the copy of the swap region starts, seen from the last block. -/
theorem blockAt_last (hwf : WellFormed whole g) :
    g.blockAt (dataBlocks whole - 1)
      = 1024 + whole.int sbSwapOffset * g.blockSize - g.blockSize := by
  have hend := hwf.blockAt_end
  have hsucc := blockAt_succ g (dataBlocks whole - 1)
  unfold dataBlocks at *
  rw [Int.sub_add_cancel, hend] at hsucc
  omega

theorem blockIndex_eq (hwf : WellFormed whole g)
    (hrun : inodeLoop g whole = some s) :
    s.blockIndex = blocksTaken g whole := by
  have hindex := (inodeLoop_counted hwf.bounds hrun).index
  rw [takenBefore_all] at hindex
  rw [hindex]
  unfold blocksTaken
  push_cast
  rfl

/-- When `free_block` is the head of the chain. -/
theorem head_iff {base field taken blocks : Int} (ht : 0 ≤ taken) :
    (if base ≤ sbFreeBlock then field else taken)
        = (if 0 < (blocks - taken).toNat then taken else -1)
      ↔ (sbFreeBlock < base → taken < blocks)
        ∧ (base ≤ sbFreeBlock → field = if taken < blocks then taken else -1) := by
  split_ifs <;> omega

/-- The free blocks, counted from the first or from the last. -/
theorem words_of_toNat (taken blocks : Int) (word : Int → Int) :
    (∀ b, taken ≤ b → b < taken + (blocks - taken).toNat →
        word b = nextFree (taken + (blocks - taken).toNat) b)
      ↔ ∀ b, taken ≤ b → b < blocks → word b = nextFree blocks b := by
  by_cases hroom : taken ≤ blocks
  · rw [show taken + (blocks - taken).toNat = blocks by omega]
  · exact ⟨fun _ b _ _ => by omega, fun _ b _ _ => by omega⟩

/-- When the words of the free blocks make the chain. -/
theorem words_iff (hwf : WellFormed whole g)
    (hrun : inodeLoop g whole = some s)
    (hdest : afterLoop g whole s = some dest) :
    (∀ b, blocksTaken g whole ≤ b → b < dataBlocks whole →
        dest.int (g.blockAt b) = nextFree (dataBlocks whole) b)
      ↔ (∀ b, blocksTaken g whole ≤ b → b < dataBlocks whole →
          whole.int sbSwapOffset * g.blockSize ≤ g.blockAt b →
          whole.int (g.blockAt b) = nextFree (dataBlocks whole) b)
        ∧ (1024 < g.blockSize → blocksTaken g whole < dataBlocks whole →
          whole.int sbDataOffset = 0) := by
  have hindex := blockIndex_eq hwf hrun
  have hnonneg : 0 ≤ blocksTaken g whole := by
    rw [← hindex]
    exact (inodeLoop_counted hwf.bounds hrun).progress.sane.index
  have hdata := hwf.inode_offset.trans hwf.data_offset
  have hlast := blockAt_last hwf
  -- the word written, and when it is the right one
  have hword {b : Int} (hlo : blocksTaken g whole ≤ b)
      (hhi : b < dataBlocks whole) := written_link hwf hrun hdest
        (hindex.symm ▸ hlo) hhi
  have hlink {b : Int} (hlo : blocksTaken g whole ≤ b)
      (hhi : b < dataBlocks whole) := link_eq_nextFree hdata
        (hnonneg.trans hlo) hhi
  constructor
  · intro h
    constructor
    · intro b hlo hhi hcov
      rw [← h b hlo hhi, hword hlo hhi, if_pos hcov]
    · intro hbig hroom
      have hhi : dataBlocks whole - 1 < dataBlocks whole := by omega
      have hlo : blocksTaken g whole ≤ dataBlocks whole - 1 := by omega
      have hb := h _ hlo hhi
      rw [hword hlo hhi, if_neg (by omega)] at hb
      exact (hlink hlo hhi).mp hb rfl
  · intro ⟨hcov, hopen⟩ b hlo hhi
    rw [hword hlo hhi]
    split
    case isTrue h => exact hcov b hlo hhi h
    case isFalse h =>
      refine (hlink hlo hhi).mpr fun hb => ?_
      have hb : b = dataBlocks whole - 1 := hb
      rw [hb, hlast] at h
      exact hopen (by omega) (by omega)

/-- In the image that is written out, the chain from `free_block` visits the
blocks from `block_index` to the end of the data region in order and ends
with -1, if and only if the original image is such that the list comes out
right. -/
theorem free_list_iff (hwf : WellFormed whole g)
    (hrun : inodeLoop g whole = some s) :
    ∃ dest, afterLoop g whole s = some dest
      ∧ (FreeChain g dest (dest.int sbFreeBlock) (consecutive s.blockIndex
            (dataBlocks whole - s.blockIndex).toNat)
        ↔ FreeListDue g whole) := by
  have hc := inodeLoop_counted hwf.bounds hrun
  obtain ⟨dest, hdest, -⟩ := afterLoop_eq hwf hc.progress
  have hindex := blockIndex_eq hwf hrun
  have hnonneg := hc.progress.sane.index
  have hwords := words_iff hwf hrun hdest
  refine ⟨dest, hdest, ?_⟩
  rw [freeChain_iff, written_freeBlock hwf hrun hdest, hindex]
  rw [hindex] at hnonneg
  rw [head_iff hnonneg, words_of_toNat _ _ fun b => dest.int (g.blockAt b),
    hwords]
  constructor
  · intro ⟨⟨hroom, hhead⟩, hcov, hlast⟩
    exact ⟨hroom, hhead, hcov, hlast⟩
  · intro h
    exact ⟨⟨h.room, h.head⟩, h.words, h.last⟩

-- ============================================================== examples

/-- An empty disk with blocks of 2048 bytes: one for inodes, two for data. -/
def emptyDisk : Buffer :=
  [(sbSize, 2048), (sbDataOffset, 1), (sbSwapOffset, 3)].foldl
    (fun img p => img.putInt p.1 p.2) (Buffer.zero 7168)

def emptyRegions : Regions := ⟨2048, 1024, 3072, 20⟩

theorem emptyDisk_wellFormed : WellFormed emptyDisk emptyRegions := by
  constructor <;> decide +kernel

/-- A disk with two free blocks of 512 bytes at the end, linked as they
should be. -/
def linkedDisk : Buffer := (roomy.putInt 2560 3).putInt 3072 (-1)

theorem linkedDisk_wellFormed : WellFormed linkedDisk roomyRegions := by
  constructor <;> decide +kernel

/-- The theorem for the two disks: the copy of the swap region covers the two
free blocks of the one, and reaches no block of the other. -/
theorem free_list_iff_disks :
    (∃ s dest, inodeLoop roomyRegions linkedDisk = some s
      ∧ afterLoop roomyRegions linkedDisk s = some dest
      ∧ FreeListDue roomyRegions linkedDisk
      ∧ FreeChain roomyRegions dest (dest.int sbFreeBlock) [2, 3])
    ∧ ∃ s dest, inodeLoop emptyRegions emptyDisk = some s
      ∧ afterLoop emptyRegions emptyDisk s = some dest
      ∧ ¬FreeListDue emptyRegions emptyDisk
      ∧ ¬FreeChain emptyRegions dest (dest.int sbFreeBlock) [0, 1] := by
  constructor
  · obtain ⟨s, hrun⟩ : ∃ s, inodeLoop roomyRegions linkedDisk = some s :=
      Option.isSome_iff_exists.mp (by decide +kernel)
    have hindex : (inodeLoop roomyRegions linkedDisk).map State.blockIndex
        = some 2 := by
      decide +kernel
    rw [hrun, Option.map_some, Option.some.injEq] at hindex
    have htaken : blocksTaken roomyRegions linkedDisk = 2 := by decide +kernel
    have hblocks : dataBlocks linkedDisk = 4 := by decide +kernel
    have hdue : FreeListDue roomyRegions linkedDisk := by
      refine ⟨fun _ => ?_, fun hcov => ?_, fun b hlo hhi _ => ?_, fun hbig => ?_⟩
      · rw [htaken, hblocks]
        decide
      · exact absurd hcov (by decide +kernel)
      · rw [htaken] at hlo
        rw [hblocks] at hhi
        obtain rfl | rfl : b = 2 ∨ b = 3 := by omega
        · decide +kernel
        · decide +kernel
      · exact absurd hbig (by decide)
    obtain ⟨dest, hdest, hiff⟩ := free_list_iff linkedDisk_wellFormed hrun
    rw [hindex, hblocks] at hiff
    exact ⟨s, dest, hrun, hdest, hdue, hiff.mpr hdue⟩
  · obtain ⟨s, hrun⟩ : ∃ s, inodeLoop emptyRegions emptyDisk = some s :=
      Option.isSome_iff_exists.mp (by decide +kernel)
    have hindex : (inodeLoop emptyRegions emptyDisk).map State.blockIndex
        = some 0 := by
      decide +kernel
    rw [hrun, Option.map_some, Option.some.injEq] at hindex
    have hblocks : dataBlocks emptyDisk = 2 := by decide +kernel
    have hlate : ¬FreeListDue emptyRegions emptyDisk := by
      intro hdue
      exact absurd (hdue.last (by decide) (by decide +kernel))
        (by decide +kernel)
    obtain ⟨dest, hdest, hiff⟩ := free_list_iff emptyDisk_wellFormed hrun
    rw [hindex, hblocks] at hiff
    exact ⟨s, dest, hrun, hdest, hlate, hlate ∘ hiff.mp⟩

/-- The last free block of the empty disk names block 2, which is not in the
data region, as its successor. -/
theorem free_list_unterminated : ¬ ∀ whole g s dest, WellFormed whole g →
    inodeLoop g whole = some s → afterLoop g whole s = some dest →
    FreeChain g dest (dest.int sbFreeBlock)
      (consecutive s.blockIndex (dataBlocks whole - s.blockIndex).toNat) := by
  intro h
  obtain ⟨s, hrun⟩ : ∃ s, inodeLoop emptyRegions emptyDisk = some s :=
    Option.isSome_iff_exists.mp (by decide +kernel)
  have hword : ((inodeLoop emptyRegions emptyDisk).bind fun s =>
      (afterLoop emptyRegions emptyDisk s).map fun dest =>
        (s.blockIndex, dest.int (emptyRegions.blockAt 1))) = some (0, 2) := by
    decide +kernel
  have hblocks : dataBlocks emptyDisk = 2 := by decide +kernel
  rw [hrun, Option.bind_some, Option.map_eq_some_iff] at hword
  obtain ⟨dest, hdest, hword⟩ := hword
  rw [Prod.mk.injEq] at hword
  have hchain := h emptyDisk emptyRegions s dest emptyDisk_wellFormed hrun hdest
  rw [freeChain_iff, hblocks, hword.1] at hchain
  have hlast := hchain.2 1 (by decide) (by decide)
  rw [hword.2] at hlast
  exact absurd hlast (by decide)

end OperatingSystem.Defrag
