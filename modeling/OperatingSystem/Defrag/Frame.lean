/-
What the defragmenter leaves alone.

Four base offsets meet in `dest_buffer`: the prefix copied before the inode
loop, the inode records, the data blocks and the swap region. The copy
invariant of `Files` keeps the first two apart from the third, and whatever
a block numbered beyond the data region has spilled into the swap region is
overwritten by the last `memcpy`.
-/
import OperatingSystem.Defrag.Tail

namespace OperatingSystem.Defrag

open Lib (Buffer)

variable {g : Regions} {whole dest : Buffer} {data : List UInt8} {s : State}
  {x : Int}

/-- A byte of the boot block, of the super block without `free_block`, of
an unused inode record, of a live one before its pointers, or of the swap
region. -/
inductive Framed (g : Regions) (img : Buffer) (x : Int) : Prop
  | boot (hlo : 0 ≤ x) (hhi : x < BOOT_SIZE)
  | super (hlo : BOOT_SIZE ≤ x) (hhi : x < BOOT_SIZE + SUPER_SIZE)
      (hfree : x < sbFreeBlock ∨ sbFreeBlock + INT_SIZE ≤ x)
  | unused (i : Nat) (hi : i < g.numInode.toNat)
      (hidle : ¬Live img (g.inode i)) (hlo : g.inode i ≤ x)
      (hhi : x < g.inode i + INODE_SIZE)
  | live (i : Nat) (hi : i ∈ liveInodes g img) (hlo : g.inode i ≤ x)
      (hhi : x < g.inode i + dblocks)
  | swap
      (hlo : BOOT_SIZE + SUPER_SIZE + img.int sbSwapOffset * g.blockSize ≤ x)
      (hhi : x < img.size)

/-- The steps behind the inode loop, byte by byte: the free list writes
`free_block` and free blocks, then everything from
`swap_offset * BLOCK_SIZE` on is the source's again. -/
theorem afterLoop_bytes {start : Nat → Int} {n i₀ : Nat}
    (hwf : WellFormed whole g) (hp : Progress g whole n i₀ start s)
    (h : afterLoop g whole s = some dest) :
    dest.size = whole.size
      ∧ ∀ x, x < whole.size → x < sbFreeBlock ∨ sbFreeBlock + INT_SIZE ≤ x →
        whole.int sbSwapOffset * g.blockSize ≤ x
          ∨ x < g.blockAt s.blockIndex →
        dest.byte x = if whole.int sbSwapOffset * g.blockSize ≤ x
          then whole.byte x else s.dest.byte x := by
  obtain ⟨dest₁, hfree, hsize, hswap, hkeep⟩ := buildFreeList_spec hwf hp
  obtain ⟨dest₂, hcopy, hsize₂, hbytes⟩ := copySwap_spec hwf hsize hswap
  unfold afterLoop at h
  rw [hfree, Option.bind_eq_bind, Option.bind_some, hcopy] at h
  obtain rfl := Option.some.inj h
  refine ⟨hsize₂, fun x hx hout hlow => ?_⟩
  rw [hbytes x hx]
  split
  case isTrue => rfl
  case isFalse hbelow => exact hkeep x hout (hlow.resolve_left hbelow)

/-- Everything before the data region that the loop had to leave alone is
as in the source. -/
theorem Progress.kept {start : Nat → Int} {n : Nat} (hwf : WellFormed whole g)
    (hp : Progress g whole n g.numInode.toNat start s)
    (hx : Framed g whole x) :
    1024 + whole.int sbSwapOffset * g.blockSize ≤ x
      ∨ x < g.dataBegin ∧ s.dest.byte x = whole.byte x := by
  have hB := hwf.bounds
  have hinode := hB.inode
  have hdata := hB.records
  have hnum := hB.inodes
  unfold INODE_SIZE at hdata
  cases hx with
  | boot hlo hhi =>
      unfold BOOT_SIZE at hhi
      exact .inr ⟨by omega, hp.before x hlo (by omega)⟩
  | super hlo hhi =>
      unfold BOOT_SIZE SUPER_SIZE at hhi
      unfold BOOT_SIZE at hlo
      exact .inr ⟨by omega, hp.before x (by omega) (by omega)⟩
  | unused i hi hidle hlo hhi =>
      have hrange := hB.inode_range hi
      exact .inr ⟨by omega, hp.idle i hi hidle x hlo hhi⟩
  | live i hi hlo hhi =>
      obtain ⟨hlt, hlive⟩ := mem_liveInodes.mp hi
      have hrange := hB.inode_range hlt
      unfold INODE_SIZE at hrange
      have hheader := (hp.placed i hlt hlive).2.1.header
      refine .inr ⟨?_, hheader x hlo (by omega)⟩
      unfold dblocks at hhi
      omega
  | swap hlo hhi => exact .inl hlo

/-- `free_block` is in none of the framed parts. -/
theorem Framed.not_free_block (hwf : WellFormed whole g)
    (hx : Framed g whole x) :
    x < whole.size ∧ (x < sbFreeBlock ∨ sbFreeBlock + INT_SIZE ≤ x) := by
  have hB := hwf.bounds
  have hinode := hB.inode
  have hdata := hB.data
  have hlarge := (hwf.super_lt (Int.le_refl 0)).2
  have hswap := hwf.swap_base.1
  have hfree : sbFreeBlock + INT_SIZE = 536 := rfl
  have hboot : BOOT_SIZE = 512 := rfl
  have hsuper : SUPER_SIZE = 512 := rfl
  have hfirst : sbFreeBlock = 532 := rfl
  -- the records and the swap region lie behind the super block
  suffices hbehind : 1024 ≤ x ∧ x < whole.size ∨ x < whole.size
      ∧ (x < sbFreeBlock ∨ sbFreeBlock + INT_SIZE ≤ x) by omega
  cases hx with
  | boot hlo hhi => exact .inr ⟨by omega, .inl (by omega)⟩
  | super hlo hhi hout => exact .inr ⟨by omega, hout⟩
  | unused i hi hidle hlo hhi =>
      have hrange := hB.inode_range hi
      exact .inl ⟨by omega, by omega⟩
  | live i hi hlo hhi =>
      have hrange := hB.inode_range (mem_liveInodes.mp hi).1
      have hheader : dblocks ≤ INODE_SIZE := by decide
      exact .inl ⟨by omega, by omega⟩
  | swap hlo hhi => exact .inl ⟨by omega, hhi⟩

/-- A run that makes no access outside its buffers keeps every framed
byte. -/
theorem defrag_frame (hwf : WellFormed whole g)
    (hrun : defrag whole = some (dest, data)) :
    dest.size = whole.size
      ∧ ∀ x, Framed g whole x → dest.byte x = whole.byte x := by
  simp only [defrag, Option.bind_eq_bind, Option.bind_eq_some_iff] at hrun
  obtain ⟨g', hg', s, hloop, dest', htail, heq⟩ := hrun
  obtain rfl : g' = g := Option.some.inj (hg'.symm.trans hwf.read)
  obtain ⟨rfl, -⟩ := Prod.mk.inj (Option.some.inj heq)
  obtain ⟨start, hp⟩ := inodeLoop_spec hwf.bounds hloop
  obtain ⟨hsize, hbytes⟩ := afterLoop_bytes hwf hp htail
  refine ⟨hsize, fun x hx => ?_⟩
  obtain ⟨hin, hout⟩ := hx.not_free_block hwf
  have hdata := hwf.bounds.data_le hp.sane.index
  rcases hp.kept hwf hx with hswap | ⟨hlow, hsame⟩
  · rw [hbytes x hin hout (.inl (by omega)), if_pos (by omega)]
  · rw [hbytes x hin hout (.inr (by omega)), hsame, ite_self]

/-- The theorem for the example: the size of its one inode. -/
theorem defrag_frame_sample : ∃ dest data,
    defrag sample = some (dest, data)
      ∧ dest.byte (1024 + size) = sample.byte (1024 + size) := by
  obtain ⟨⟨dest, data⟩, hrun⟩ : ∃ r, defrag sample = some r :=
    Option.isSome_iff_exists.mp (by decide +kernel)
  obtain ⟨-, hframe⟩ := defrag_frame sample_wellFormed hrun
  exact ⟨dest, data, hrun, hframe _ (.live 0 (by decide +kernel) (by decide)
    (by decide))⟩

end OperatingSystem.Defrag
