/-
Defragmenting twice is defragmenting once.

# The first pass

When 1024 bytes at the end of the data region are free, what is written out
holds the inode loop's result in every record and every taken block
(`Settled`). Its super block still describes the same regions, the same
inodes are live with the same sizes, and every needed block has its number:
the image is well formed (`Settled.wellFormed`) and numbered
(`Settled.numbered`).

# The second pass

So the loop of a second pass succeeds and restores the destination of the
first one, and what follows the loop is the same computation.
-/
import Mathlib.Data.List.Nodup
import OperatingSystem.Defrag.Again

namespace OperatingSystem.Defrag

open Lib (Buffer consecutive)

variable {g : Regions} {whole dest : Buffer} {s : State}

-- ====================================================== the same inodes

/-- The super block up to `free_block` and the records up to their pointers
are the same. -/
structure SameInodes (g : Regions) (whole dest : Buffer) : Prop where
  size : dest.size = whole.size
  super : ∀ {a : Int}, 0 ≤ a → a + 4 ≤ sbFreeBlock → dest.int a = whole.int a
  header : ∀ {i : Nat}, i < g.numInode.toNat →
    Buffer.SameOn whole dest (g.inode i) dblocks

theorem SameInodes.live (h : SameInodes g whole dest) {i : Nat}
    (hi : i < g.numInode.toNat) :
    Live dest (g.inode i) ↔ Live whole (g.inode i) := by
  unfold Live
  rw [Buffer.int_congr ((h.header hi).mono (by simp only [nlink]; omega)
    (by simp only [nlink, dblocks]; omega))]

theorem SameInodes.liveInodes (h : SameInodes g whole dest) :
    liveInodes g dest = Defrag.liveInodes g whole := by
  unfold Defrag.liveInodes
  refine List.filter_congr fun i hi => ?_
  rw [decide_eq_decide]
  exact h.live (List.mem_range.mp hi)

theorem SameInodes.fileSize (h : SameInodes g whole dest) {i : Nat}
    (hi : i < g.numInode.toNat) :
    dest.int (g.inode i + Defrag.size)
      = whole.int (g.inode i + Defrag.size) :=
  Buffer.int_congr ((h.header hi).mono (by simp only [Defrag.size]; omega)
    (by simp only [Defrag.size, dblocks]; omega))

theorem SameInodes.length (h : SameInodes g whole dest) {i : Nat}
    (hi : i < g.numInode.toNat) :
    fileLength g dest (g.inode i) = fileLength g whole (g.inode i) := by
  unfold fileLength
  rw [h.fileSize hi]

/-- How many blocks a file needs is a matter of its length. -/
theorem fileNodes_congr {img img' : Buffer} (n : Nat) {i : Nat}
    (h : fileLength g img' (g.inode i) = fileLength g img (g.inode i)) :
    fileNodes g img' n i = fileNodes g img n i := by
  unfold fileNodes
  rw [h, nodesRoots_roots, nodesRoots_roots]

theorem inodeTaken_congr {img img' : Buffer} (n : Nat) {i : Nat}
    (hlive : Live img' (g.inode i) ↔ Live img (g.inode i))
    (hlen : fileLength g img' (g.inode i) = fileLength g img (g.inode i)) :
    inodeTaken g img' n i = inodeTaken g img n i := by
  unfold inodeTaken
  by_cases h : Live img (g.inode i)
  · rw [if_pos h, if_pos (hlive.mpr h), fileNodes_congr n hlen, hlen]
  · rw [if_neg h, if_neg (mt hlive.mp h)]

/-- As many blocks are due for every inode. -/
theorem SameInodes.taken (h : SameInodes g whole dest) (n : Nat) {i : Nat}
    (hi : i ≤ g.numInode.toNat) :
    takenBefore g dest n i = takenBefore g whole n i := by
  unfold takenBefore
  refine congrArg List.sum (List.map_congr_left fun j hj => ?_)
  have hj : j < g.numInode.toNat := by
    have := List.mem_range.mp hj
    omega
  exact inodeTaken_congr _ (h.live hj) (h.length hj)

/-- The fields of the super block the regions are computed from. -/
theorem SameInodes.offsets (h : SameInodes g whole dest) :
    dest.int sbSize = whole.int sbSize
      ∧ dest.int sbInodeOffset = whole.int sbInodeOffset
      ∧ dest.int sbDataOffset = whole.int sbDataOffset
      ∧ dest.int sbSwapOffset = whole.int sbSwapOffset :=
  ⟨h.super (by decide) (by decide), h.super (by decide) (by decide),
    h.super (by decide) (by decide), h.super (by decide) (by decide)⟩

/-- The regions depend on three fields of the super block only. -/
theorem readRegions_congr {img img' : Buffer} (hsize : img'.size = img.size)
    (h₁ : img'.int sbSize = img.int sbSize)
    (h₂ : img'.int sbInodeOffset = img.int sbInodeOffset)
    (h₃ : img'.int sbDataOffset = img.int sbDataOffset) :
    readRegions img' = readRegions img := by
  have hload {a : Int} (h : img'.int a = img.int a) :
      img'.loadInt a = img.loadInt a := by
    have hin : img'.Within a 4 ↔ img.Within a 4 := by
      unfold Buffer.Within
      rw [hsize]
    unfold Buffer.loadInt
    simp only [hin, h]
  unfold readRegions
  rw [hload h₁, hload h₂, hload h₃]

/-- Whether the image is well formed is now a matter of its pointers. -/
theorem SameInodes.wellFormed (h : SameInodes g whole dest)
    (hwf : WellFormed whole g)
    (hrange : ∀ i ∈ Defrag.liveInodes g whole,
      ∀ b ∈ fileBlocks g dest (g.inode i),
        0 ≤ b ∧ b < whole.int sbSwapOffset - whole.int sbDataOffset)
    (hdistinct : ((Defrag.liveInodes g whole).flatMap fun i =>
      fileBlocks g dest (g.inode i)).Nodup) : WellFormed dest g := by
  obtain ⟨hblock, hinode, hdata, hswap⟩ := h.offsets
  constructor
  case read =>
    rw [readRegions_congr h.size hblock hinode hdata]
    exact hwf.read
  case block_pos => exact hwf.block_pos
  case block_ints => exact hwf.block_ints
  case inode_offset => rw [hinode]; exact hwf.inode_offset
  case data_offset => rw [hinode, hdata]; exact hwf.data_offset
  case swap_offset => rw [hdata, hswap]; exact hwf.swap_offset
  case fits => rw [hswap, h.size]; exact hwf.fits
  case fileSize => rw [h.size]; exact hwf.fileSize
  case sizes =>
    rw [h.liveInodes]
    intro i hi
    rw [h.fileSize (mem_liveInodes.mp hi).1]
    exact hwf.sizes i hi
  case in_range =>
    rw [h.liveInodes, hdata, hswap]
    exact hrange
  case distinct =>
    rw [h.liveInodes]
    exact hdistinct

-- ========================================================= the first pass

/-- `dest` is an image written out with room at the end of the data region:
`s` is what the inode loop left. -/
structure Settled (g : Regions) (whole : Buffer) (s : State)
    (dest : Buffer) : Prop where
  source : WellFormed whole g
  loop : inodeLoop g whole = some s
  size : dest.size = whole.size
  room : s.blockIndex ≤ whole.int sbSwapOffset - whole.int sbDataOffset
  kept : ∀ x, 0 ≤ x → x < g.blockAt s.blockIndex →
    x < sbFreeBlock ∨ sbFreeBlock + 4 ≤ x → dest.byte x = s.dest.byte x

theorem Settled.counted (h : Settled g whole s dest) :
    Counted g whole g.numIntInBlock g.numInode.toNat s :=
  inodeLoop_counted h.source.bounds h.loop

theorem room_of_end {first blocks swap b : Int}
    (hend : first + blocks = 1024 + swap) :
    b + 1024 ≤ blocks ↔ first + b ≤ swap := by
  omega

/-- With room, the taken blocks end before the copy of the swap region. -/
theorem WellFormed.room_iff (h : WellFormed whole g) {b : Int} :
    b * g.blockSize + 1024
        ≤ (whole.int sbSwapOffset - whole.int sbDataOffset) * g.blockSize
      ↔ g.dataBegin + b * g.blockSize
        ≤ whole.int sbSwapOffset * g.blockSize := by
  have hend := h.blockAt_end
  unfold Regions.blockAt at hend
  exact room_of_end hend

/-- What is written out agrees with the loop's result before that copy. -/
theorem linked_byte (hB : Bounds g whole.size g.numIntInBlock) {x : Int}
    (hx : x < g.blockAt s.blockIndex)
    (hout : x < sbFreeBlock ∨ sbFreeBlock + 4 ≤ x) :
    (linked g whole s).byte x = s.dest.byte x := by
  have hlinked : linked g whole s = freeLinks g (whole.int sbSwapOffset)
      (whole.int sbSwapOffset - whole.int sbDataOffset - s.blockIndex).toNat
      s.blockIndex (s.dest.putInt sbFreeBlock s.blockIndex) := by rw [linked]
  rw [hlinked, freeLinks_byte_outside _ _ _ _ fun _ hb _ =>
    .inl (Int.lt_of_lt_of_le hx (hB.blockAt_mono hb)),
    Buffer.putInt_byte_outside hout]

theorem settled_of_room (hwf : WellFormed whole g)
    (hrun : inodeLoop g whole = some s)
    (hroom : s.blockIndex * g.blockSize + 1024
      ≤ (whole.int sbSwapOffset - whole.int sbDataOffset) * g.blockSize)
    (hsize : dest.size = whole.size)
    (hbytes : ∀ x, x < whole.size → dest.byte x
      = if whole.int sbSwapOffset * g.blockSize ≤ x then whole.byte x
        else (linked g whole s).byte x) : Settled g whole s dest := by
  have hB := hwf.bounds
  have hlast : g.blockAt s.blockIndex ≤ whole.int sbSwapOffset * g.blockSize :=
    hwf.room_iff.mp hroom
  have hin := (inodeLoop_counted hB hrun).progress.sane.room
  constructor
  case source => exact hwf
  case loop => exact hrun
  case size => exact hsize
  case room =>
    exact Int.le_of_mul_le_mul_right
      (Int.le_trans (Int.le_add_of_nonneg_right (by decide)) hroom)
      hwf.block_pos
  case kept =>
    intro x _ hx hout
    rw [hbytes x (Int.lt_of_lt_of_le hx hin),
      if_neg (Int.not_le.mpr (Int.lt_of_lt_of_le hx hlast))]
    exact linked_byte hB hx hout

-- =================================================== what it looks like

/-- The taken blocks start behind the super block, and the inode records lie
before them. -/
theorem Settled.range (h : Settled g whole s dest) :
    1024 ≤ g.inodeBegin ∧ g.dataBegin ≤ g.blockAt s.blockIndex :=
  ⟨h.source.bounds.inode,
    h.source.bounds.data_le h.counted.progress.sane.index⟩

/-- The super block, up to `free_block`. -/
theorem Settled.super (h : Settled g whole s dest) {a : Int} (hlo : 0 ≤ a)
    (hhi : a + 4 ≤ sbFreeBlock) : dest.int a = whole.int a := by
  obtain ⟨hbegin, hdata⟩ := h.range
  have hrec := h.source.bounds.records
  have hnum := h.source.bounds.inodes
  refine Buffer.int_congr fun x hx hx' => ?_
  simp only [sbFreeBlock, BOOT_SIZE, INODE_SIZE] at hhi hrec
  rw [h.kept x (by omega) (by omega)
    (.inl (by simp only [sbFreeBlock, BOOT_SIZE]; omega))]
  exact h.counted.progress.before x (by omega) (by omega)

/-- A record before its pointers. -/
theorem Settled.header (h : Settled g whole s dest) {i : Nat}
    (hi : i < g.numInode.toNat) :
    Buffer.SameOn whole dest (g.inode i) dblocks := by
  obtain ⟨hbegin, hdata⟩ := h.range
  have hrange := h.source.bounds.inode_range hi
  have hslots : dblocks ≤ INODE_SIZE := by decide
  intro x hlo hhi
  rw [h.kept x (by omega) (by omega)
    (.inr (by simp only [sbFreeBlock, BOOT_SIZE]; omega))]
  by_cases hlive : Live whole (g.inode i)
  · exact (h.counted.progress.placed i hi hlive).2.1.header x hlo hhi
  · exact h.counted.progress.idle i hi hlive x hlo (by omega)

theorem Settled.inodes (h : Settled g whole s dest) :
    SameInodes g whole dest :=
  ⟨h.size, h.super, h.header⟩

/-- Every live file is where the loop put it. -/
theorem Settled.placed (h : Settled g whole s dest) {i : Nat}
    (hi : i < g.numInode.toNat) (hlive : Live whole (g.inode i)) :
    Placed g whole g.numIntInBlock dest i
        (takenBefore g whole g.numIntInBlock i)
      ∧ takenBefore g whole g.numIntInBlock i
          + fileNodes g whole g.numIntInBlock i ≤ s.blockIndex := by
  obtain ⟨hbegin, hdata⟩ := h.range
  have hB := h.source.bounds
  have hrange := hB.inode_range hi
  have hrec := hB.records
  have hnum := hB.inodes
  obtain ⟨hlo, hplaced, hle⟩ := h.counted.progress.placed i hi hlive
  refine ⟨hplaced.later hB hi hlo hle fun x hx hout => ?_, hle⟩
  simp only [INODE_SIZE] at hrec hrange hout
  refine h.kept x (by omega) hx (.inr ?_)
  simp only [sbFreeBlock, BOOT_SIZE]
  omega

/-- The spare block of a live file is where the loop put it. -/
theorem Settled.sparePlaced (h : Settled g whole s dest) {i : Nat}
    (hi : i < g.numInode.toNat) (hlive : Live whole (g.inode i)) :
    SparePlaced g whole g.numIntInBlock dest i := by
  obtain ⟨hbegin, hdata⟩ := h.range
  have hrange := h.source.bounds.inode_range hi
  intro o ho
  rw [← h.counted.spare i hi hlive o ho]
  have ho := (mem_spareSlots ho).2
  simp only [i2block, i3block, INODE_SIZE] at ho hrange
  refine Buffer.int_congr fun x hlo hhi =>
    h.kept x (by omega) (by omega) (.inr ?_)
  simp only [sbFreeBlock, BOOT_SIZE]
  omega

-- ============================================= well formed and numbered

/-- Every needed block has the number the loop of a second pass is due to
give it. -/
theorem Settled.numbered (h : Settled g whole s dest) :
    AllNumbered g dest g.numIntInBlock := by
  intro i hi hlive
  have hlive := (h.inodes.live hi).mp hlive
  rw [h.inodes.taken _ (Nat.le_of_lt hi)]
  constructor
  case rows =>
    rw [h.inodes.length hi]
    exact (h.placed hi hlive).1.mirror.self
  case spare =>
    intro o ho
    rw [h.inodes.length hi] at ho ⊢
    rw [h.sparePlaced hi hlive o ho, fileNodes, nodesRoots_roots,
      nodesRoots_roots]

/-- The blocks of a live file, in pre-order. -/
theorem Settled.fileBlocks (h : Settled g whole s dest) {i : Nat}
    (hi : i ∈ Defrag.liveInodes g whole) :
    fileBlocks g dest (g.inode i)
      = consecutive (takenBefore g whole g.numIntInBlock i)
        (fileNodes g whole g.numIntInBlock i) := by
  obtain ⟨hlt, hlive⟩ := mem_liveInodes.mp hi
  unfold Defrag.fileBlocks
  rw [h.inodes.length hlt]
  exact (h.placed hlt hlive).1.mirror.preorder h.source.bounds.pos

theorem consecutive_range {start b : Int} {len : Nat}
    (h : b ∈ consecutive start len) : start ≤ b ∧ b < start + len := by
  obtain ⟨k, hk, rfl⟩ := List.mem_map.mp h
  have := List.mem_range.mp hk
  omega

theorem consecutive_nodup (start : Int) (len : Nat) :
    (consecutive start len).Nodup := by
  refine List.Nodup.map (fun a b h => ?_) List.nodup_range
  omega

theorem Settled.inRange (h : Settled g whole s dest) {i : Nat}
    (hi : i ∈ Defrag.liveInodes g whole) {b : Int}
    (hb : b ∈ Defrag.fileBlocks g dest (g.inode i)) :
    0 ≤ b ∧ b < s.blockIndex := by
  obtain ⟨hlt, hlive⟩ := mem_liveInodes.mp hi
  rw [h.fileBlocks hi] at hb
  obtain ⟨hlo, hhi⟩ := consecutive_range hb
  have := (h.placed hlt hlive).2
  omega

theorem Settled.distinct (h : Settled g whole s dest) :
    ((Defrag.liveInodes g whole).flatMap fun i =>
      Defrag.fileBlocks g dest (g.inode i)).Nodup := by
  rw [List.nodup_flatMap]
  refine ⟨fun i hi => ?_, ?_⟩
  · rw [h.fileBlocks hi]
    exact consecutive_nodup _ _
  have hsorted : (Defrag.liveInodes g whole).Pairwise (· < ·) :=
    List.Pairwise.filter _ List.pairwise_lt_range
  refine List.Pairwise.imp_of_mem (fun {i j} hi hj hij => ?_) hsorted
  -- the second file starts where the first one ends, or later
  have hordered := h.counted.progress.ordered i j hij
    (mem_liveInodes.mp hj).1 (mem_liveInodes.mp hi).2 (mem_liveInodes.mp hj).2
  intro b hbi hbj
  dsimp only at hbi hbj
  rw [h.fileBlocks hi] at hbi
  rw [h.fileBlocks hj] at hbj
  obtain ⟨-, hend⟩ := consecutive_range hbi
  obtain ⟨hstart, -⟩ := consecutive_range hbj
  omega

theorem Settled.wellFormed (h : Settled g whole s dest) :
    WellFormed dest g := by
  refine h.inodes.wellFormed h.source (fun i hi b hb => ?_) h.distinct
  obtain ⟨hlo, hlt⟩ := h.inRange hi hb
  exact ⟨hlo, Int.lt_of_lt_of_le hlt h.room⟩

-- ======================================================== the second pass

/-- What is copied for a live file can be read. -/
theorem Settled.allReadable (h : Settled g whole s dest) {i : Nat}
    (hi : i < g.numInode.toNat) (hlive : Live dest (g.inode i)) :
    AllReadable g dest g.numIntInBlock (g.inode i) := by
  have hwf := h.wellFormed
  obtain ⟨-, -, hdata, hswap⟩ := h.inodes.offsets
  have hroom := h.room
  rw [← hdata, ← hswap] at hroom
  have hmem := mem_liveInodes.mpr ⟨hi, hlive⟩
  have hlive := (h.inodes.live hi).mp hlive
  constructor
  case needed =>
    rw [rawBlocks_eq_fileBlocks hwf hmem]
    intro u hu
    obtain ⟨hlo, hhi⟩ := hwf.in_range i hmem u hu
    exact hwf.readable hlo hhi
  case spare =>
    rw [h.inodes.length hi]
    intro o ho
    rw [h.sparePlaced hi hlive o ho]
    have hnext := takenBefore_mono g whole g.numIntInBlock
      (show i + 1 ≤ g.numInode.toNat by omega)
    have hindex := h.counted.index
    rw [takenBefore_succ, inodeTaken, if_pos hlive,
      (mem_spareSlots ho).1] at hnext
    exact hwf.readable (Int.add_nonneg (Int.natCast_nonneg _)
      (Int.natCast_nonneg _)) (Int.lt_of_lt_of_le (by omega) hroom)

/-- The loop of a second pass makes no wild access and takes as many
blocks. -/
theorem Settled.runs (h : Settled g whole s dest) :
    ∃ s', inodeLoop g dest = some s' ∧ s'.blockIndex = s.blockIndex := by
  have hB := h.wellFormed.bounds
  have hc := h.counted
  have htaken := h.inodes.taken g.numIntInBlock
    (Nat.le_refl g.numInode.toNat)
  obtain ⟨s', hrun⟩ := inodeLoop_runs hB (fun i hi => h.allReadable hi) (by
    rw [htaken, ← hc.index, h.size]
    exact hc.progress.sane.room)
  refine ⟨s', hrun, ?_⟩
  rw [(inodeLoop_counted hB hrun).index, htaken, hc.index]

/-- It restores the destination of the first one, but for `free_block`. -/
theorem Settled.restores (h : Settled g whole s dest) {s' : State}
    (hrun : inodeLoop g dest = some s')
    (hindex : s'.blockIndex = s.blockIndex) {x : Int} (hx : 0 ≤ x)
    (hout : x < sbFreeBlock ∨ sbFreeBlock + 4 ≤ x) :
    s'.dest.byte x = s.dest.byte x := by
  obtain ⟨hbegin, hdata⟩ := h.range
  have hB := h.source.bounds
  have hrec := hB.records
  have hend : g.inode g.numInode.toNat ≤ g.dataBegin := by
    have := hB.inodes
    unfold Regions.inode
    rw [Int.toNat_of_nonneg this]
    exact hrec
  rw [inodeLoop_restored h.wellFormed.bounds h.numbered hrun x hx, hindex]
  by_cases hin : x < g.inode g.numInode.toNat
      ∨ (g.dataBegin ≤ x ∧ x < g.blockAt s.blockIndex)
  · rw [if_pos hin]
    exact h.kept x hx (by omega) hout
  · rw [if_neg hin]
    exact (h.counted.fresh x (by omega) (by omega)).symm

/-- Storing the same word where the rest agrees. -/
theorem putInt_byte_congr {b b' : Buffer} {a v x : Int}
    (h : x < a ∨ a + 4 ≤ x → b'.byte x = b.byte x) :
    (b'.putInt a v).byte x = (b.putInt a v).byte x := by
  unfold Buffer.putInt
  dsimp only
  by_cases hin : a ≤ x ∧ x < a + 4
  · rw [if_pos hin, if_pos hin]
  · rw [if_neg hin, if_neg hin]
    exact h (by omega)

/-- So the same image is built behind it. -/
theorem Settled.linked (h : Settled g whole s dest) {s' : State}
    (hrun : inodeLoop g dest = some s')
    (hindex : s'.blockIndex = s.blockIndex) {x : Int} (hx : 0 ≤ x) :
    (linked g dest s').byte x = (linked g whole s).byte x := by
  obtain ⟨-, -, hdata, hswap⟩ := h.inodes.offsets
  have hleft : Defrag.linked g dest s'
      = freeLinks g (whole.int sbSwapOffset)
        (whole.int sbSwapOffset - whole.int sbDataOffset
          - s.blockIndex).toNat
        s.blockIndex (s'.dest.putInt sbFreeBlock s.blockIndex) := by
    rw [Defrag.linked, hswap, hdata, hindex]
  have hright : Defrag.linked g whole s
      = freeLinks g (whole.int sbSwapOffset)
        (whole.int sbSwapOffset - whole.int sbDataOffset
          - s.blockIndex).toNat
        s.blockIndex (s.dest.putInt sbFreeBlock s.blockIndex) := by
    rw [Defrag.linked]
  rw [hleft, hright]
  exact freeLinks_byte_congr _ _ _
    (putInt_byte_congr fun hout => h.restores hrun hindex hx hout)

-- ==================================== where the swap copy covers everything

/-- The bytes of the file are the same. -/
structure SameFile (img img' : Buffer) : Prop where
  size : img'.size = img.size
  bytes : ∀ x, 0 ≤ x → x < img.size → img'.byte x = img.byte x

theorem SameFile.int {img img' : Buffer} (h : SameFile img img') {a : Int}
    (hlo : 0 ≤ a) (hhi : a + 4 ≤ img.size) : img'.int a = img.int a :=
  Buffer.int_congr fun x hx hx' => h.bytes x (by omega) (by omega)

theorem SameFile.record (h : SameFile whole dest) (hwf : WellFormed whole g)
    {i : Nat} (hi : i < g.numInode.toNat) :
    Buffer.SameOn whole dest (g.inode i) INODE_SIZE := by
  have hrange := hwf.bounds.inode_range hi
  have hbegin := hwf.bounds.inode
  have hdata := hwf.bounds.data
  intro x hlo hhi
  exact h.bytes x (by omega) (by omega)

theorem SameFile.inodes (h : SameFile whole dest) (hwf : WellFormed whole g) :
    SameInodes g whole dest := by
  have hlarge := (hwf.super_lt (Int.le_refl 0)).2
  refine ⟨h.size, fun hlo hhi => h.int hlo ?_, fun hi => ?_⟩
  · simp only [sbFreeBlock, BOOT_SIZE] at hhi
    omega
  · exact (h.record hwf hi).mono (Int.le_refl _)
      (by simp only [dblocks, INODE_SIZE]; omega)

theorem SameFile.roots (h : SameFile whole dest) (hwf : WellFormed whole g)
    {i : Nat} (hi : i < g.numInode.toNat) :
    Lib.SameSlots (roots whole (g.inode i))
      (Defrag.roots dest (g.inode i)) := by
  have hsame := h.record hwf hi
  rw [roots_eq, roots_eq]
  refine same_slots_of_frame fun row hrow x hx hx' => hsame x ?_ ?_
  all_goals
    simp only [inodeRows, List.mem_cons, List.not_mem_nil, or_false] at hrow
    rcases hrow with rfl | rfl | rfl | rfl <;>
      simp only [dblocks, iblocks, i2block, i3block, N_DBLOCKS, N_IBLOCKS,
        INODE_SIZE] at * <;> omega

theorem SameFile.blocks (h : SameFile whole dest) (hwf : WellFormed whole g)
    {i : Nat} (hi : i ∈ liveInodes g whole) :
    fileBlocks g dest (g.inode i) = fileBlocks g whole (g.inode i) := by
  obtain ⟨hlt, -⟩ := mem_liveInodes.mp hi
  have hints := hwf.bounds.ints
  have hfits := hwf.fits
  unfold fileBlocks
  rw [(h.inodes hwf).length hlt]
  refine Lib.preorderRoots_congr _ _ (h.roots hwf hlt) fun u hu j hj => ?_
  obtain ⟨hlo, hhi⟩ := hwf.in_range i hi u hu
  have hsuper := (hwf.super_lt hlo).1
  have hend := hwf.block_fits hhi
  unfold child INT_SIZE
  exact h.int (by omega) (by omega)

theorem SameFile.wellFormed (h : SameFile whole dest)
    (hwf : WellFormed whole g) : WellFormed dest g := by
  refine (h.inodes hwf).wellFormed hwf (fun i hi b hb => ?_) ?_
  · rw [h.blocks hwf hi] at hb
    exact hwf.in_range i hi b hb
  · rw [List.flatMap_congr fun i hi => h.blocks hwf hi]
    exact hwf.distinct

/-- A loop that makes no wild access in one makes none in the other. -/
theorem SameFile.runs (h : SameFile whole dest) (hwf : WellFormed whole g)
    (hrun : inodeLoop g whole = some s) :
    ∃ s', inodeLoop g dest = some s' := by
  have hwf' := h.wellFormed hwf
  have hsame := h.inodes hwf
  obtain ⟨hread, hfit⟩ := (inodeLoop_runs_iff hwf.bounds).mp ⟨s, hrun⟩
  refine inodeLoop_runs hwf'.bounds (fun i hi hlive => ?_) ?_
  case refine_2 =>
    rw [hsame.taken _ (Nat.le_refl _), h.size]
    exact hfit
  have hmem := mem_liveInodes.mpr ⟨hi, hlive⟩
  constructor
  case needed =>
    rw [rawBlocks_eq_fileBlocks hwf' hmem]
    intro u hu
    obtain ⟨hlo, hhi⟩ := hwf'.in_range i hmem u hu
    exact hwf'.readable hlo hhi
  case spare =>
    rw [hsame.length hi]
    intro o ho
    have hspare := (hread i hi ((hsame.live hi).mp hlive)).spare o ho
    have hint : dest.int (g.inode i + o) = whole.int (g.inode i + o) := by
      have ho := (mem_spareSlots ho).2
      simp only [i2block, i3block] at ho
      refine Buffer.int_congr ((h.record hwf hi).mono (by omega) ?_)
      simp only [INODE_SIZE]
      omega
    rw [hint]
    unfold Readable Buffer.Within at hspare ⊢
    rw [h.size]
    exact hspare

-- ============================================================= the result

/-- The super block before `free_block` is the source's. -/
theorem linked_super (hwf : WellFormed whole g)
    (hrun : inodeLoop g whole = some s) {x : Int} (hlo : 0 ≤ x)
    (hhi : x < sbFreeBlock) : (linked g whole s).byte x = whole.byte x := by
  have hp := (inodeLoop_counted hwf.bounds hrun).progress
  have hsuper := (hwf.super_lt hp.sane.index).1
  have hbegin := hwf.bounds.inode
  have h532 : sbFreeBlock = 532 := rfl
  rw [linked_byte hwf.bounds (by omega) (.inl hhi)]
  exact hp.before x hlo (by omega)

/-- A second pass whose links are those of the image it reads. -/
theorem again_of_linked {s' : State} (hwf : WellFormed dest g)
    (hrun : inodeLoop g dest = some s')
    (h : ∀ x, 0 ≤ x → x < dest.int sbSwapOffset * g.blockSize →
      (linked g dest s').byte x = dest.byte x) :
    ∃ dest' data', defrag dest = some (dest', data') ∧ SameFile dest dest' := by
  obtain ⟨dest', hafter, hsize, hbytes⟩ :=
    afterLoop_eq hwf (inodeLoop_counted hwf.bounds hrun).progress
  refine ⟨dest', s'.dataFile, (defrag_cases hwf).mpr ⟨s', hrun, hafter, rfl⟩,
    hsize, fun x hlo hhi => ?_⟩
  rw [hbytes x hhi]
  split
  case isTrue => rfl
  case isFalse hlt => exact h x hlo (Int.not_le.mp hlt)

/-- Defragmenting an image that was written out with 1024 bytes to spare at
the end of its data region writes it out again, byte for byte. -/
theorem defrag_again {data : List UInt8} (hwf : WellFormed whole g)
    (h : defrag whole = some (dest, data))
    (hroom : dest.int sbFreeBlock * g.blockSize + 1024
      ≤ (whole.int sbSwapOffset - whole.int sbDataOffset) * g.blockSize) :
    ∃ dest' data', defrag dest = some (dest', data') ∧ SameFile dest dest' := by
  obtain ⟨s, hrun, hafter, -⟩ := (defrag_cases hwf).mp h
  have hc := inodeLoop_counted hwf.bounds hrun
  obtain ⟨out, hout, hsize, hbytes⟩ := afterLoop_eq hwf hc.progress
  obtain rfl : dest = out := Option.some.inj (hafter.symm.trans hout)
  have hfree := written_freeBlock hwf hrun hafter
  by_cases hcover : whole.int sbSwapOffset * g.blockSize ≤ sbFreeBlock
  case neg =>
    rw [if_neg hcover] at hfree
    rw [hfree] at hroom
    have hset := settled_of_room hwf hrun hroom hsize hbytes
    obtain ⟨s', hrun', hindex⟩ := hset.runs
    refine again_of_linked hset.wellFormed hrun' fun x hlo hlt => ?_
    rw [hset.inodes.offsets.2.2.2] at hlt
    have hin := Int.lt_of_lt_of_le hlt
      (Int.le_trans (Int.le_add_of_nonneg_left (by decide)) hwf.fits)
    rw [hset.linked hrun' hindex hlo, hbytes x hin, if_neg (Int.not_le.mpr hlt)]
  case pos =>
    -- everything from `free_block` on is put back, so nothing has changed
    have hfile : SameFile whole dest := by
      refine ⟨hsize, fun x hlo hhi => ?_⟩
      rw [hbytes x hhi]
      split
      case isTrue => rfl
      case isFalse hlt =>
        exact linked_super hwf hrun hlo
          (Int.lt_of_lt_of_le (Int.not_le.mp hlt) hcover)
    have hwf' := hfile.wellFormed hwf
    obtain ⟨s', hrun'⟩ := hfile.runs hwf hrun
    refine again_of_linked hwf' hrun' fun x hlo hlt => ?_
    rw [(hfile.inodes hwf).offsets.2.2.2] at hlt
    exact linked_super hwf' hrun' hlo (Int.lt_of_lt_of_le hlt hcover)

/-- The theorem for the example, which the first pass does change. -/
theorem defrag_again_roomy : ∃ dest data dest' data',
    defrag roomy = some (dest, data) ∧ dest.byte 1536 ≠ roomy.byte 1536
      ∧ defrag dest = some (dest', data') ∧ SameFile dest dest' := by
  obtain ⟨⟨dest, data⟩, hrun⟩ : ∃ out, defrag roomy = some out :=
    Option.isSome_iff_exists.mp (by decide +kernel)
  have hread : (defrag roomy).map
      (fun out => (out.1.int sbFreeBlock, out.1.byte 1536)) = some (2, 9) := by
    decide +kernel
  rw [hrun, Option.map_some, Option.some.injEq, Prod.mk.injEq] at hread
  obtain ⟨hfree, hbyte⟩ := hread
  dsimp only at hfree hbyte
  obtain ⟨dest', data', hagain, hsame⟩ := defrag_again roomy_wellFormed hrun
    (by rw [hfree]; decide +kernel)
  refine ⟨dest, data, dest', data', hrun, ?_, hagain, hsame⟩
  rw [hbyte]
  decide +kernel

end OperatingSystem.Defrag
