/-
The defragmenter of hw6: `main` of `defrag.c`, from the moment the disk
image has been read into `whole_buffer`.

# Memory

`whole_buffer` and `dest_buffer` are two `Lib.Buffer`s of `FILE_SIZE`
bytes; `dest_buffer` starts zeroed. An `Inode*` or an `int*` into them is
an offset. Every access outside its buffer has no result, so a run of the
model that yields something made none.

# Arithmetic

`block_index`, `this_file_size` and the region bounds are `int`s, and so
is the product of a block number with `BLOCK_SIZE` before it is added to
the buffer's address: `i32` wraps them. Offsets of a record or of a slot
inside a block are not wrapped, they never leave the buffer.

Argument handling, opening and closing files and freeing the buffers are
left out; `data_file` is the list of bytes written to it.
-/
import OperatingSystem.Lib.Buffer

namespace OperatingSystem.Defrag

open Lib (Buffer i32)

-- ============================================================= defrag.h

def N_DBLOCKS : Nat := 10
def N_IBLOCKS : Nat := 4
def INT_SIZE : Int := 4
def BOOT_SIZE : Int := 512
def SUPER_SIZE : Int := 512

/-- `sizeof(Inode)`. -/
def INODE_SIZE : Int := 100

/-- Where the fields of the `SuperBlock` behind the boot block are. -/
def sbSize : Int := BOOT_SIZE
def sbInodeOffset : Int := BOOT_SIZE + 4
def sbDataOffset : Int := BOOT_SIZE + 8
def sbSwapOffset : Int := BOOT_SIZE + 12
def sbFreeBlock : Int := BOOT_SIZE + 20

/-- Where the fields of an `Inode` are, from the start of its record. -/
def nlink : Int := 8
def size : Int := 12
def dblocks : Int := 36
def iblocks : Int := 76
def i2block : Int := 92
def i3block : Int := 96

/-- `BLOCK_SIZE`, `INODE_BEGIN`, `DATA_BEGIN` and `num_inode`. -/
structure Regions where
  blockSize : Int
  inodeBegin : Int
  dataBegin : Int
  numInode : Int
  deriving DecidableEq, Repr

/-- `num_int_in_block`, as a number of loop iterations. -/
def Regions.numIntInBlock (g : Regions) : Nat :=
  (g.blockSize.tdiv INT_SIZE).toNat

/-- `(Inode*)(buffer + INODE_BEGIN + INODE_SIZE * i)`. -/
def Regions.inode (g : Regions) (i : Nat) : Int :=
  g.inodeBegin + INODE_SIZE * i

/-- `buffer + DATA_BEGIN + ptr * BLOCK_SIZE`. -/
def Regions.block (g : Regions) (ptr : Int) : Int :=
  g.dataBegin + i32 (ptr * g.blockSize)

/-- The regions according to the super block. -/
def readRegions (whole : Buffer) : Option Regions := do
  let blockSize ← whole.loadInt sbSize
  let inodeOffset ← whole.loadInt sbInodeOffset
  let dataOffset ← whole.loadInt sbDataOffset
  let inodeBegin := i32 (BOOT_SIZE + SUPER_SIZE + i32 (inodeOffset * blockSize))
  let dataBegin := i32 (BOOT_SIZE + SUPER_SIZE + i32 (dataOffset * blockSize))
  some {
    blockSize, inodeBegin, dataBegin
    numInode := (i32 (dataBegin - inodeBegin)).tdiv INODE_SIZE }

/-- What the inode loop changes. -/
structure State where
  dest : Buffer
  blockIndex : Int
  thisFileSize : Int
  finished : Bool
  dataFile : List UInt8

section Loops

variable (g : Regions) (whole : Buffer)

-- ============================================================ one block

/-- `memcpy` of block `ptr` of `whole_buffer` to block `block_index` of
`dest_buffer`. -/
def copyBlock (ptr : Int) (s : State) : Option State := do
  let dest ← s.dest.memcpy (g.block s.blockIndex) whole (g.block ptr) g.blockSize
  some { s with dest }

/-- The body of the four innermost loops: the data block named in `slot`
is copied and written to `data_file`, and `slot` gets its new number. -/
def copyData (slot : Int) (s : State) : Option State := do
  let s := { s with thisFileSize := i32 (s.thisFileSize - g.blockSize) }
  let ptr ← s.dest.loadInt slot
  let s ← copyBlock g whole ptr s
  let s := { s with
    dataFile := s.dataFile ++ s.dest.slice (g.block s.blockIndex) g.blockSize }
  let dest ← s.dest.storeInt slot s.blockIndex
  some { s with dest, blockIndex := i32 (s.blockIndex + 1) }

/-- An index block is copied and `slot` gets its new number. The result is
where the copy starts (`curr_block_lv1` and its like). -/
def copyIndex (ptr slot : Int) (s : State) : Option (Int × State) := do
  let s ← copyBlock g whole ptr s
  let currBlock := g.block s.blockIndex
  let dest ← s.dest.storeInt slot s.blockIndex
  some (currBlock, { s with dest, blockIndex := i32 (s.blockIndex + 1) })

-- ============================================================= the loops

/-- A loop over `count` slots from slot `j` on, left with `finished = TRUE`
as soon as `stop` holds. -/
def forSlots (stop : State → Bool) (body : Nat → State → Option State) :
    (j count : Nat) → State → Option State
  | _, 0, s => some s
  | j, count + 1, s =>
      if stop s then some { s with finished := true }
      else
        match body j s with
        | none => none
        | some s => forSlots stop body (j + 1) count s

/-- `this_file_size <= 0`. -/
def fileDone (s : State) : Bool := decide (s.thisFileSize ≤ 0)

/-- `this_file_size <= 0 || finished == TRUE`. -/
def fileDoneOrFinished (s : State) : Bool :=
  decide (s.thisFileSize ≤ 0) || s.finished

/-- The loop over the data blocks named in the block at `currBlock`. -/
def currBlockLv1 (currBlock : Int) : State → Option State :=
  forSlots fileDone (fun k => copyData g whole (currBlock + INT_SIZE * k)) 0
    g.numIntInBlock

/-- The loop over the index blocks named in the block at `currBlock`,
`next` being the loop over each of them. -/
def currBlockOver (next : Int → State → Option State) (currBlock : Int) :
    State → Option State :=
  forSlots fileDoneOrFinished
    (fun j s => do
      let slot := currBlock + INT_SIZE * j
      let ptr ← s.dest.loadInt slot
      let (below, s) ← copyIndex g whole ptr slot s
      next below s)
    0 g.numIntInBlock

/-- The loops over what lies below an index block of depth `d + 1`. -/
def currBlock : Nat → Int → State → Option State
  | 0 => currBlockLv1 g whole
  | d + 1 => currBlockOver g whole (currBlock d)

def currBlockLv2 : Int → State → Option State := currBlock g whole 1

def currBlockLv3 : Int → State → Option State := currBlock g whole 2

-- ============================================================= one inode

/-- "First check direct block". -/
def directBlocks (curr : Int) : State → Option State :=
  forSlots fileDone
    (fun j => copyData g whole (curr + dblocks + INT_SIZE * j)) 0 N_DBLOCKS

/-- "Check lv1 indirect block". -/
def lv1Blocks (curr : Int) (s : State) : Option State :=
  if s.finished then some s
  else
    forSlots fileDoneOrFinished
      (fun j s => do
        let slot := curr + iblocks + INT_SIZE * j
        let ptr ← whole.loadInt slot
        let (below, s) ← copyIndex g whole ptr slot s
        currBlockLv1 g whole below s)
      0 N_IBLOCKS s

/-- "Check lv2 indirect block" and "Check lv3 indirect block": the index
block named in `slot` of the original inode is copied whether or not
anything of the file is left. -/
def topBlock (next : Int → State → Option State) (slot : Int) (s : State) :
    Option State :=
  if s.finished then some s
  else do
    let ptr ← whole.loadInt slot
    let (below, s) ← copyIndex g whole ptr slot s
    next below s

def lv2Block (curr : Int) : State → Option State :=
  topBlock g whole (currBlockLv2 g whole) (curr + i2block)

def lv3Block (curr : Int) : State → Option State :=
  topBlock g whole (currBlockLv3 g whole) (curr + i3block)

/-- The blocks of a live inode. -/
def copyFile (curr : Int) (s : State) : Option State := do
  let fileSize ← s.dest.loadInt (curr + size)
  let s := { s with finished := false, thisFileSize := fileSize }
  let s ← directBlocks g whole curr s
  let s ← lv1Blocks g whole curr s
  let s ← lv2Block g whole curr s
  lv3Block g whole curr s

/-- One iteration of the outmost loop. `curr` and `ori_curr` are the same
offset into the two buffers. -/
def copyInode (i : Nat) (s : State) : Option State := do
  let curr := g.inode i
  let dest ← s.dest.memcpy curr whole curr INODE_SIZE
  let s := { s with dest, thisFileSize := 0 }
  let links ← s.dest.loadInt (curr + nlink)
  if links = 0 then some s else copyFile g whole curr s

/-- The outmost loop, from inode `i` on. -/
def inodesFrom : (i count : Nat) → State → Option State
  | _, 0, s => some s
  | i, count + 1, s =>
      match copyInode g whole i s with
      | none => none
      | some s => inodesFrom (i + 1) count s

/-- Everything up to the end of the inode loop. -/
def inodeLoop : Option State := do
  let dest ← (Buffer.zero whole.size).memcpy 0 whole 0 g.inodeBegin
  inodesFrom g whole 0 g.numInode.toNat {
    dest, blockIndex := 0, thisFileSize := 0, finished := false, dataFile := [] }

-- ========================================================= after the loop

/-- The free list from block `i` on; an `int` that starts at `i` takes at
most `fuel` values. -/
def freeBlocksFrom : (fuel : Nat) → (i : Int) → Buffer → Option Buffer
  | 0, _, dest => some dest
  | fuel + 1, i, dest => do
      let swapOffset ← dest.loadInt sbSwapOffset
      let dataOffset ← dest.loadInt sbDataOffset
      if i < i32 (swapOffset - dataOffset) then do
        let dest ← dest.storeInt (g.block i)
          (if i = i32 (swapOffset - 1) then -1 else i32 (i + 1))
        freeBlocksFrom fuel (i32 (i + 1)) dest
      else some dest

/-- `sb->free_block = block_index` and the loop that builds the free
list. -/
def buildFreeList (s : State) : Option Buffer := do
  let dest ← s.dest.storeInt sbFreeBlock s.blockIndex
  freeBlocksFrom g (2 ^ 31 - s.blockIndex).toNat s.blockIndex dest

/-- The last `memcpy`, of the swap region. -/
def copySwap (dest : Buffer) : Option Buffer := do
  let swapOffset ← dest.loadInt sbSwapOffset
  let base := i32 (swapOffset * g.blockSize)
  dest.memcpy base whole base (i32 (whole.size - base))

/-- The steps that follow the inode loop, up to the `fwrite` of
`dest_buffer`. -/
def afterLoop (s : State) : Option Buffer := do
  let dest ← buildFreeList g s
  copySwap g whole dest

end Loops

/-- `defrag`: the image written to `out_file` and the bytes written to
`data_file`. -/
def defrag (whole : Buffer) : Option (Buffer × List UInt8) := do
  let g ← readRegions whole
  let s ← inodeLoop g whole
  let dest ← afterLoop g whole s
  some (dest, s.dataFile)

end OperatingSystem.Defrag
