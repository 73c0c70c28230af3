/-
The image that is written out, byte for byte.

The free-list loop links the blocks from `block_index` to the end of the
data region (`freeLinks`); afterwards the copy of the swap region puts the
original bytes back from `swap_offset * BLOCK_SIZE` on, which is 1024 bytes
before that region starts. Both write words at multiples of four, so a word
of the result is either the linked one or the original one
(`written_int`). This holds of the field `free_block` too, on an image so
small that the copy covers it.
-/
import OperatingSystem.Defrag.Tail
import OperatingSystem.Defrag.Count

namespace OperatingSystem.Defrag

open Lib (Buffer i32)

variable {g : Regions} {whole dest : Buffer} {s : State}

-- ====================================================== the links written

/-- What the loop puts into free block `i`. -/
def link (swapOffset i : Int) : Int := if i = swapOffset - 1 then -1 else i + 1

/-- `count` free blocks from `i` on are linked. -/
def freeLinks (g : Regions) (swapOffset : Int) :
    (count : Nat) → (i : Int) → Buffer → Buffer
  | 0, _, dest => dest
  | count + 1, i, dest =>
      freeLinks g swapOffset count (i + 1)
        (dest.putInt (g.blockAt i) (link swapOffset i))

/-- Linking changes the first words of the blocks only. -/
theorem freeLinks_byte_outside (swapOffset : Int) {x : Int} :
    ∀ (count : Nat) (i : Int) (dest : Buffer),
      (∀ b, i ≤ b → b < i + count →
        x < g.blockAt b ∨ g.blockAt b + 4 ≤ x) →
      (freeLinks g swapOffset count i dest).byte x = dest.byte x := by
  intro count
  induction count with
  | zero => intro i dest _; rfl
  | succ count ih =>
      intro i dest hout
      unfold freeLinks
      rw [ih (i + 1) _ fun b hlo hhi => hout b (by omega) (by omega),
        Buffer.putInt_byte_outside (hout i (by omega) (by omega))]

/-- What linking writes does not depend on what was there. -/
theorem freeLinks_byte_congr (swapOffset : Int) {x : Int} :
    ∀ (count : Nat) (i : Int) {dest dest' : Buffer},
      dest'.byte x = dest.byte x →
      (freeLinks g swapOffset count i dest').byte x
        = (freeLinks g swapOffset count i dest).byte x := by
  intro count
  induction count with
  | zero => intro i dest dest' h; exact h
  | succ count ih =>
      intro i dest dest' h
      unfold freeLinks
      refine ih (i + 1) ?_
      unfold Buffer.putInt
      dsimp only
      rw [h]

/-- The word of a linked block. -/
theorem freeLinks_int (hwf : WellFormed whole g) (swapOffset : Int) {b : Int} :
    ∀ (count : Nat) (i : Int) (dest : Buffer), i ≤ b → b < i + count →
      (freeLinks g swapOffset count i dest).int (g.blockAt b)
        = i32 (link swapOffset b) := by
  have hB := hwf.bounds
  have hints := hB.ints
  have hn := hB.pos
  intro count
  induction count with
  | zero => intro i dest hlo hhi; omega
  | succ count ih =>
      intro i dest hlo hhi
      unfold freeLinks
      by_cases hi : i = b
      · subst hi
        rw [Buffer.int_congr (b := dest.putInt (g.blockAt i) (link swapOffset i))
          fun x _ hx => freeLinks_byte_outside swapOffset count (i + 1) _
            fun c hc _ => .inl ?_, Buffer.putInt_int]
        have hmono := hB.blockAt_mono hc
        rw [blockAt_succ] at hmono
        omega
      · exact ih (i + 1) _ (by omega) (by omega)

/-- The free-list loop links all free blocks. -/
theorem freeBlocksFrom_eq (hwf : WellFormed whole g) :
    ∀ (count fuel : Nat) (i : Int) (dest : Buffer), count ≤ fuel →
      whole.int sbSwapOffset - whole.int sbDataOffset ≤ i + count →
      (count = 0
        ∨ i + count = whole.int sbSwapOffset - whole.int sbDataOffset) →
      dest.size = whole.size → 0 ≤ i →
      dest.int sbSwapOffset = whole.int sbSwapOffset →
      dest.int sbDataOffset = whole.int sbDataOffset →
      freeBlocksFrom g fuel i dest
        = some (freeLinks g (whole.int sbSwapOffset) count i dest) := by
  have hB := hwf.bounds
  have hpos := hB.block_pos
  intro count
  induction count with
  | zero =>
      intro fuel i dest _ hend _ hsize hi hswap hdata
      obtain ⟨-, hlarge⟩ := hwf.super_lt hi
      obtain ⟨hload, hload'⟩ := within_super (show 1024 ≤ dest.size by omega)
      cases fuel with
      | zero => rfl
      | succ fuel =>
          unfold freeBlocksFrom
          rw [hload, hload', hswap, hdata, Option.bind_eq_bind,
            Option.bind_some, Option.bind_some, hwf.blocks_range.2,
            if_neg (by omega)]
          rfl
  | succ count ih =>
      intro fuel i dest hfuel _ hcount hsize hi hswap hdata
      have hcount := hcount.resolve_left (Nat.succ_ne_zero count)
      push_cast at hcount
      obtain ⟨hsuper, hlarge⟩ := hwf.super_lt hi
      obtain ⟨hload, hload'⟩ := within_super (show 1024 ≤ dest.size by omega)
      obtain ⟨fuel, rfl⟩ := Nat.exists_eq_add_of_le' (Nat.le_of_add_left_le hfuel)
      have hlt : i < whole.int sbSwapOffset - whole.int sbDataOffset :=
        (show i < i + (count + 1) by omega).trans_eq hcount
      have hstore := hwf.block_eq hi hlt
      have hlast := whole.int_lt sbSwapOffset
      have hdata' := hwf.inode_offset.trans hwf.data_offset
      have hin : dest.Within (g.block i) 4 := by
        rw [hstore]
        exact hwf.word_within hsize hi hlt
      unfold freeBlocksFrom freeLinks
      rw [hload, hload', hswap, hdata, Option.bind_eq_bind, Option.bind_some,
        Option.bind_some, hwf.blocks_range.2, if_pos hlt,
        Buffer.storeInt_of_within hin, Option.bind_eq_bind, Option.bind_some,
        hstore, Lib.i32_of_range (n := i + 1) (by omega) (by omega),
        Lib.i32_of_range (n := whole.int sbSwapOffset - 1) (by omega) (by omega)]
      refine ih fuel (i + 1) _ (by omega) (by omega) (.inr (by omega)) hsize
        (by omega) ?_ ?_
      · rw [Buffer.putInt_int_outside, hswap]
        simp only [sbSwapOffset, BOOT_SIZE]
        omega
      · rw [Buffer.putInt_int_outside, hdata]
        simp only [sbDataOffset, BOOT_SIZE]
        omega

-- ================================================= the image written out

/-- The image with `free_block` set and the free blocks linked. -/
def linked (g : Regions) (whole : Buffer) (s : State) : Buffer :=
  freeLinks g (whole.int sbSwapOffset)
    (whole.int sbSwapOffset - whole.int sbDataOffset - s.blockIndex).toNat
    s.blockIndex (s.dest.putInt sbFreeBlock s.blockIndex)

theorem toNat_range {e i : Int} : e ≤ i + (e - i).toNat
    ∧ ((e - i).toNat = 0 ∨ i + (e - i).toNat = e) := by
  omega

theorem buildFreeList_eq {n i₀ : Nat} {start : Nat → Int}
    (hwf : WellFormed whole g) (hp : Progress g whole n i₀ start s) :
    buildFreeList g s = some (linked g whole s) := by
  obtain ⟨hswap, hdata⟩ := super_kept hwf hp
  obtain ⟨hsuper, hlarge⟩ := hwf.super_lt hp.sane.index
  have hsize := hp.sane.size
  have hin : s.dest.Within sbFreeBlock 4 := by
    simp only [Buffer.Within, sbFreeBlock, BOOT_SIZE]
    omega
  have hlast := whole.int_lt sbSwapOffset
  have hdata' := hwf.inode_offset.trans hwf.data_offset
  have hfuel : (whole.int sbSwapOffset - whole.int sbDataOffset
      - s.blockIndex).toNat ≤ (2 ^ 31 - s.blockIndex).toNat :=
    Int.toNat_le_toNat (by omega)
  unfold buildFreeList linked
  rw [Buffer.storeInt_of_within hin, Option.bind_eq_bind, Option.bind_some]
  refine freeBlocksFrom_eq hwf _ _ _ _ hfuel toNat_range.1 toNat_range.2 hsize
    hp.sane.index ?_ ?_
  · rw [Buffer.putInt_int_outside, hswap]
    simp only [sbSwapOffset, sbFreeBlock, BOOT_SIZE]
    omega
  · rw [Buffer.putInt_int_outside, hdata]
    simp only [sbDataOffset, sbFreeBlock, BOOT_SIZE]
    omega

/-- The image that is written out, byte for byte. -/
theorem afterLoop_eq {n i₀ : Nat} {start : Nat → Int}
    (hwf : WellFormed whole g) (hp : Progress g whole n i₀ start s) :
    ∃ dest, afterLoop g whole s = some dest ∧ dest.size = whole.size
      ∧ ∀ x, x < whole.size → dest.byte x
        = if whole.int sbSwapOffset * g.blockSize ≤ x then whole.byte x
          else (linked g whole s).byte x := by
  have hfree := buildFreeList_eq hwf hp
  obtain ⟨dest₁, hbuild, hsize, hswap, -⟩ := buildFreeList_spec hwf hp
  rw [hfree, Option.some.injEq] at hbuild
  rw [← hbuild] at hsize hswap
  obtain ⟨dest, hcopy, hsize', hbytes⟩ := copySwap_spec hwf hsize hswap
  refine ⟨dest, ?_, hsize', hbytes⟩
  unfold afterLoop
  rw [hfree, Option.bind_eq_bind, Option.bind_some]
  exact hcopy

/-- A word of the image that is written out lies before the copy of the swap
region or behind. -/
theorem written_int (hwf : WellFormed whole g) {img : Buffer} {a : Int}
    (hbytes : ∀ x, x < whole.size → dest.byte x
      = if whole.int sbSwapOffset * g.blockSize ≤ x then whole.byte x
        else img.byte x)
    (ha : 4 ∣ a) (hin : a + 4 ≤ whole.size) :
    dest.int a = if whole.int sbSwapOffset * g.blockSize ≤ a
      then whole.int a else img.int a := by
  have hbase : 4 ∣ whole.int sbSwapOffset * g.blockSize :=
    Dvd.dvd.mul_left hwf.block_ints _
  generalize whole.int sbSwapOffset * g.blockSize = base at *
  split
  case isTrue hle =>
    refine Buffer.int_congr fun x hlo hhi => ?_
    rw [hbytes x (by omega), if_pos (by omega)]
  case isFalse hgt =>
    refine Buffer.int_congr fun x hlo hhi => ?_
    rw [hbytes x (by omega), if_neg (by omega)]

/-- A run of the defragmenter is the inode loop and what follows. -/
theorem defrag_cases (hwf : WellFormed whole g) {data : List UInt8} :
    defrag whole = some (dest, data)
      ↔ ∃ s, inodeLoop g whole = some s ∧ afterLoop g whole s = some dest
        ∧ data = s.dataFile := by
  unfold defrag
  rw [hwf.read, Option.bind_eq_bind, Option.bind_some]
  simp only [Option.bind_eq_bind, Option.bind_eq_some_iff, Option.some.injEq,
    Prod.mk.injEq]
  constructor
  · intro ⟨s, hs, dest', hd, hdest, hdata⟩
    exact ⟨s, hs, hdest ▸ hd, hdata.symm⟩
  · intro ⟨s, hs, hd, hdata⟩
    exact ⟨s, hs, dest, hd, rfl, hdata.symm⟩

/-- The field `free_block` of the image that is written out. -/
theorem written_freeBlock (hwf : WellFormed whole g)
    (hrun : inodeLoop g whole = some s)
    (hdest : afterLoop g whole s = some dest) :
    dest.int sbFreeBlock
      = if whole.int sbSwapOffset * g.blockSize ≤ sbFreeBlock
        then whole.int sbFreeBlock else s.blockIndex := by
  have hB := hwf.bounds
  have hc := inodeLoop_counted hB hrun
  obtain ⟨dest', hafter, -, hbytes⟩ := afterLoop_eq hwf hc.progress
  obtain rfl : dest' = dest := Option.some.inj (hafter.symm.trans hdest)
  have hlarge := (hwf.super_lt (Int.le_refl 0)).2
  rw [written_int hwf hbytes (by decide)
    (by simp only [sbFreeBlock, BOOT_SIZE]; omega)]
  have hindex := hc.progress.sane.index
  have hlt := (hB.block_eq hindex hc.progress.sane.room).2
  have hlink : (linked g whole s).int sbFreeBlock = s.blockIndex := by
    unfold linked
    rw [Buffer.int_congr fun x hlo hhi => freeLinks_byte_outside _ _ _ _
      fun b hb _ => .inl ?_, Buffer.putInt_int,
      Lib.i32_of_range (by omega) (by omega)]
    have hsuper := (hwf.super_lt (hindex.trans hb)).1
    simp only [sbFreeBlock, BOOT_SIZE] at hhi
    omega
  rw [hlink]

end OperatingSystem.Defrag
