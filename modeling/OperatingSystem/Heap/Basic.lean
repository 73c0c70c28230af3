/-
The allocator of hw5: `mem.c` as the Makefile builds it (`-Daligned`).

# Memory

A block header (`Node`) is four words of mapped memory: `next`, `prev`,
`next_free` and, in the lower half of the fourth, `status`. A pointer is an
address, `NULL` is 0. A header outside the mapped region, or a misaligned
one, faults: the call has no result. `*global_head` lies in front of all
headers and only the assignments below write to it, so its fields are
fields of the state.

# Arithmetic

`round_to` takes and computes `int`s, `size_to_allocate` and
`block_available` are `int`s: `i32` wraps them. `last_block_size` and
`remaining_size` are `long`s that accumulate: `i64` wraps them. Addresses
and their differences do not wrap.

# Loops

The walk back to a FREE block, the scan of the free list and the pass of
`coalesce_all` need not end on a damaged heap. They take the number of
iterations they may make, and one that is not done by then has no result.

`mmap` and `getpagesize` are the environment's. What is printed is left
out, but for the lines of `Mem_Dump`; so are `Mem_delete_all` and the
functions nothing calls.
-/
import OperatingSystem.Lib.Words

namespace OperatingSystem.Heap

open Lib (Words i32 i64 withLow)

-- ======================================================== util.h, mem.h

def NULL : Int := 0
def FREE : Int := 0
def ALLOCATED : Int := 1
def BLOCK_HEADER : Int := 32
def GLOBAL_SIZE : Int := 48
def BLOCK_SIZE : Int := 8
def FALSE : Int := 0
def TRUE : Int := 1
def RETURN_WITH_ERROR : Int := -1
def RETURN_SUCCESS : Int := 0
def E_NO_SPACE : Int := 1
def E_BAD_ARGS : Int := 4

/-- What `mmap` returns when it fails. -/
def MAP_FAILED : Int := -1

/-- `getpagesize()`, and where `mmap` puts a mapping of a given length;
`none` when it fails. -/
structure Env where
  pageSize : Int
  mmap : Int → Option Nat

/-- The globals, `*global_head` and the mapped memory. -/
structure State where
  globalHead : Int
  head : Int
  headFree : Int
  actualSize : Int
  remainingSize : Int
  mem : Words
  largest : Int
  secondLargest : Int
  lastBlockSize : Int
  sizeOfLastAllocate : Int
  needGlobalCoalesce : Int
  mError : Int

/-- A process that has not called the allocator yet. -/
def State.fresh : State where
  globalHead := NULL
  head := NULL
  headFree := NULL
  actualSize := 0
  remainingSize := 0
  mem := ⟨0, 0, fun _ => 0⟩
  largest := NULL
  secondLargest := NULL
  lastBlockSize := 0
  sizeOfLastAllocate := 0
  needGlobalCoalesce := FALSE
  mError := 0

/-- `*global_head` can be read. -/
def State.ready (s : State) : Prop :=
  s.globalHead ≠ NULL ∧ s.globalHead ≠ MAP_FAILED

instance (s : State) : Decidable s.ready := by
  unfold State.ready
  infer_instance

-- ======================================================== header fields

namespace State

variable (s : State) (p v : Int)

def next : Option Int := s.mem.load p

def prev : Option Int := s.mem.load (p + 8)

def nextFree : Option Int := s.mem.load (p + 16)

def status : Option Int := (s.mem.load (p + 24)).map i32

def store (a v : Int) : Option State :=
  (s.mem.store a v).map fun mem => { s with mem }

def setNext : Option State := s.store p v

def setPrev : Option State := s.store (p + 8) v

def setNextFree : Option State := s.store (p + 16) v

def setStatus : Option State := do
  let word ← s.mem.load (p + 24)
  s.store (p + 24) (withLow word v)

end State

-- =============================================================== helpers

/-- `round_to`. -/
def roundTo (val base : Int) : Int :=
  i32 (i32 ((i32 (i32 val - 1)).tdiv (i32 base) * i32 base) + i32 base)

/-- `get_block_size`. -/
def getBlockSize (s : State) (pointer : Int) : Option Int :=
  if pointer = NULL then some RETURN_WITH_ERROR
  else do
    let next ← s.next pointer
    if next ≠ NULL then some (next - (pointer + BLOCK_HEADER))
    else some s.lastBlockSize

/-- `get_header`. -/
def getHeader (pointer : Int) : Int := pointer - BLOCK_HEADER

/-- `is_valid_addr`. -/
def isValidAddr (s : State) (pointer : Int) : Option Bool :=
  if ¬s.ready then none
  else if s.head < pointer ∧ pointer < s.head + s.actualSize then do
    let status ← s.status (getHeader pointer)
    some (decide (status = ALLOCATED ∨ status = FREE))
  else some false

/-- The walk from `p` back along `prev` to the nearest FREE block. -/
def nearestFree (s : State) : (fuel : Nat) → (p : Int) → Option Int
  | 0, _ => none
  | fuel + 1, p =>
      if p = NULL then some p
      else do
        let status ← s.status p
        if status ≠ FREE then do
          let prev ← s.prev p
          nearestFree s fuel prev
        else some p

-- ============================================================== Mem_Init

/-- `Mem_Init`. -/
def memInit (env : Env) (s : State) (sizeOfRegion : Int) :
    Option (Int × State) :=
  if s.globalHead ≠ NULL then
    some (RETURN_WITH_ERROR, { s with mError := E_BAD_ARGS })
  else if sizeOfRegion ≤ 0 then
    some (RETURN_WITH_ERROR, { s with mError := E_BAD_ARGS })
  else
    let toAlloc := (roundTo sizeOfRegion BLOCK_SIZE).tdiv BLOCK_SIZE
      * BLOCK_HEADER + sizeOfRegion
    let toAllocWithGlobal := roundTo (toAlloc + GLOBAL_SIZE) env.pageSize
    match env.mmap toAllocWithGlobal with
    | none =>
        some (RETURN_WITH_ERROR,
          { s with globalHead := MAP_FAILED, mError := E_NO_SPACE })
    | some (base : Nat) => do
        let head := base + GLOBAL_SIZE
        let s := { s with
          globalHead := base, actualSize := toAllocWithGlobal,
          remainingSize := sizeOfRegion, head,
          mem := ⟨base, toAllocWithGlobal, fun _ => 0⟩ }
        let s ← s.setNext head NULL
        let s ← s.setPrev head NULL
        let s ← s.setNextFree head NULL
        let s ← s.setStatus head FREE
        some (RETURN_SUCCESS, { s with
          headFree := head
          lastBlockSize := roundTo sizeOfRegion BLOCK_SIZE
          largest := NULL
          secondLargest := NULL })

-- ============================================================= Mem_Alloc

/-- The local variables of `Mem_Alloc` that the search sets, and the two
cached pointers. -/
structure Choice where
  largest : Int
  secondLargest : Int
  sizeToAllocate : Int
  prevFree : Int
  nextToAllocate : Int
  deriving DecidableEq, Repr

/-- The scan's update of `largest` and `second_largest` for the block
`curr` of `blockAvailable` bytes. -/
def rank (s : State) (curr blockAvailable : Int) (c : Choice) :
    Option Choice := do
  let sizeOfLargest ← getBlockSize s c.largest
  if blockAvailable ≥ sizeOfLargest then
    some { c with secondLargest := c.largest, largest := curr }
  else do
    let sizeOfSecond ← getBlockSize s c.secondLargest
    if blockAvailable ≥ sizeOfSecond then
      some { c with secondLargest := curr }
    else some c

/-- The scan of the free list from `curr` on; `temp1` is the block before
`curr`. -/
def scan (s : State) (size : Int) :
    (fuel : Nat) → (curr temp1 : Int) → Choice → Option Choice
  | 0, _, _, _ => none
  | fuel + 1, curr, temp1, c =>
      if curr = NULL then some c
      else do
        let available ← getBlockSize s curr
        let blockAvailable := i32 available
        let c ← rank s curr blockAvailable c
        let c :=
          if blockAvailable > size ∧ blockAvailable > c.sizeToAllocate then
            { c with
              sizeToAllocate := blockAvailable
              prevFree := temp1
              nextToAllocate := curr }
          else c
        let nextFree ← s.nextFree curr
        scan s size fuel nextFree curr c

/-- Nothing chosen yet. -/
def unchosen (largest secondLargest : Int) : Choice :=
  ⟨largest, secondLargest, -1, NULL, NULL⟩

/-- The search of `Mem_Alloc`, for a rounded `size`: the cached largest
block if both cached pointers are set and in order, else a scan. -/
def search (s : State) (fuel : Nat) (size : Int) : Option Choice :=
  if s.largest ≠ NULL ∧ s.secondLargest ≠ NULL then do
    let sizeOfLargest ← getBlockSize s s.largest
    let sizeOfSecond ← getBlockSize s s.secondLargest
    if sizeOfLargest ≥ sizeOfSecond then do
      let prev ← s.prev s.largest
      let prevFree ← nearestFree s fuel prev
      some ⟨s.largest, s.secondLargest, i32 sizeOfLargest, prevFree, s.largest⟩
    else
      scan s size fuel s.headFree NULL (unchosen s.largest s.secondLargest)
  else
    scan s size fuel s.headFree NULL (unchosen s.headFree s.headFree)

/-- The header of `new_next` behind `block`. -/
def newHeader (s : State) (block newNext : Int) : Option State := do
  let temp2 ← s.next block
  let s ← s.setNext newNext temp2
  let s ← if temp2 ≠ NULL then s.setPrev temp2 newNext else some s
  let s ← s.setPrev newNext block
  let s ← s.setStatus newNext FREE
  let nextFree ← s.nextFree block
  s.setNextFree newNext nextFree

/-- `new_next` in the place of `block` on the free list, and behind it in
the chain. -/
def linkNew (s : State) (block prevFree newNext : Int) : Option State := do
  let s ← if prevFree ≠ NULL then s.setNextFree prevFree newNext
    else some { s with headFree := newNext }
  s.setNext block newNext

/-- The chosen block is cut: `new_next` is what is left of it. -/
def splitBlock (s : State) (c : Choice) (size : Int) : Option State := do
  let newNext := c.nextToAllocate + BLOCK_HEADER + size
  let s ← newHeader s c.nextToAllocate newNext
  let s ← linkNew s c.nextToAllocate c.prevFree newNext
  let sizeOfNew ← getBlockSize s newNext
  let sizeOfSecond ← getBlockSize s s.secondLargest
  let s := if sizeOfNew > sizeOfSecond then { s with largest := newNext }
    else { s with largest := s.secondLargest, secondLargest := NULL }
  let next ← s.next newNext
  some (if next = NULL
    then { s with lastBlockSize := i64 (s.lastBlockSize - size) } else s)

/-- The chosen block is taken as it is. -/
def takeWhole (s : State) (c : Choice) (size : Int) : Option State := do
  let block := c.nextToAllocate
  let nextFree ← s.nextFree block
  let s := if c.prevFree = NULL then { s with headFree := nextFree } else s
  let next ← s.next block
  let s := if next = NULL then { s with sizeOfLastAllocate := size } else s
  some { s with largest := s.secondLargest, secondLargest := NULL }

/-- Whether the chosen block is cut. -/
def splits (next : Int) (c : Choice) (size : Int) : Prop :=
  if next ≠ NULL then c.sizeToAllocate ≥ BLOCK_HEADER + size + BLOCK_SIZE
  else c.sizeToAllocate ≥ size + BLOCK_SIZE

instance (next : Int) (c : Choice) (size : Int) :
    Decidable (splits next c size) := by
  unfold splits
  infer_instance

/-- `Mem_Alloc` from the end of the search on. -/
def takeBlock (s : State) (c : Choice) (actSize size : Int) :
    Option (Int × State) :=
  let s := { s with largest := c.largest, secondLargest := c.secondLargest }
  if c.sizeToAllocate = -1 then some (NULL, { s with mError := E_NO_SPACE })
  else do
    let next ← s.next c.nextToAllocate
    let s ← if splits next c size then splitBlock s c size
      else takeWhole s c size
    let s ← s.setNextFree c.nextToAllocate NULL
    let s ← s.setStatus c.nextToAllocate ALLOCATED
    some (c.nextToAllocate + BLOCK_HEADER,
      { s with remainingSize := i64 (s.remainingSize - actSize) })

/-- `Mem_Alloc`. -/
def memAlloc (fuel : Nat) (s : State) (size : Int) : Option (Int × State) :=
  if ¬s.ready then none
  else if size > s.remainingSize then
    some (NULL, { s with mError := E_NO_SPACE })
  else do
    let c ← search s fuel (roundTo size BLOCK_SIZE)
    takeBlock s c size (roundTo size BLOCK_SIZE)

-- ============================================================ coalescing

/-- A cached pointer to `p` is dropped. -/
def forget (s : State) (p : Int) : State :=
  if s.largest ≠ NULL ∧ p = s.largest then { s with largest := NULL }
  else if s.secondLargest ≠ NULL ∧ p = s.secondLargest then
    { s with secondLargest := NULL }
  else s

/-- `next` is what follows `p` in the chain from now on. -/
def linkTo (s : State) (p next : Int) : Option State := do
  let s ← s.setNext p next
  if next ≠ NULL then s.setPrev next p else some s

/-- The last block, the one that `next` says ends the chain, has grown. -/
def growLast (s : State) (next size : Int) : State :=
  if next = NULL then { s with lastBlockSize := i64 (s.lastBlockSize + size) }
  else s

/-- The first half of `my_coalesce`: the next block, if it is FREE, is
absorbed. -/
def absorbNext (s : State) (pointer : Int) : Option State := do
  let next ← s.next pointer
  if next = NULL then some s
  else do
    let status ← s.status next
    if status ≠ FREE then some s
    else do
      let nextFree ← s.nextFree next
      let s ← s.setNextFree pointer nextFree
      let next ← s.next next
      let s ← linkTo s pointer next
      some (forget s next)

/-- The second half: the block is absorbed by the previous one, if that is
FREE. `curSizePrev` is the previous block's size before. -/
def absorbIntoPrev (s : State) (pointer curSizePrev : Int) :
    Option (Int × State) := do
  let prev ← s.prev pointer
  if prev = NULL then some (pointer, s)
  else do
    let status ← s.status prev
    if status ≠ FREE then some (pointer, s)
    else do
      let nextFree ← s.nextFree pointer
      let s ← s.setNextFree prev nextFree
      let next ← s.next pointer
      let s ← linkTo s prev next
      some (prev, growLast (forget s prev) next curSizePrev)

/-- `my_coalesce`. -/
def myCoalesce (s : State) (pointer : Int) : Option (Int × State) :=
  if pointer = NULL then some (NULL, s)
  else do
    let curSize ← getBlockSize s pointer
    let s ← absorbNext s pointer
    let next ← s.next pointer
    let s := growLast s next curSize
    let prev ← s.prev pointer
    let curSizePrev ← getBlockSize s prev
    absorbIntoPrev s pointer curSizePrev

/-- The pass of `coalesce_all` from `temp` on. -/
def coalesceFrom : (fuel : Nat) → (temp : Int) → State → Option State
  | 0, _, _ => none
  | fuel + 1, temp, s =>
      if temp = NULL then some s
      else do
        let status ← s.status temp
        let (temp, s) ← if status = FREE then myCoalesce s temp
          else some (temp, s)
        let nextFree ← s.nextFree temp
        coalesceFrom fuel nextFree s

/-- `coalesce_all`, and the flag its callers reset. -/
def coalesceAll (fuel : Nat) (s : State) : Option State :=
  if ¬s.ready then none
  else do
    let s ← coalesceFrom fuel s.head s
    some { s with needGlobalCoalesce := FALSE }

-- ============================================================== Mem_Free

/-- The freed block's bytes are handed back. -/
def giveBack (s : State) (curr toFreeSize : Int) : Option State := do
  let status ← s.status curr
  if status = ALLOCATED then do
    let next ← s.next curr
    if next = NULL then some { s with
      remainingSize := i64 (s.remainingSize + s.sizeOfLastAllocate)
      lastBlockSize := s.sizeOfLastAllocate
      sizeOfLastAllocate := -1 }
    else some { s with remainingSize := i64 (s.remainingSize + toFreeSize) }
  else some s

/-- The block that results from `my_coalesce`, and `coalesce_flag`. -/
def coalesceFreed (s : State) (curr coalesce : Int) :
    Option (Int × Bool × State) :=
  if coalesce ≠ 0 then do
    let before ← getBlockSize s curr
    let (merged, s) ← myCoalesce s curr
    let after ← getBlockSize s merged
    some (merged, decide (after - before = 0 ∨ curr = merged), s)
  else some (curr, false, s)

/-- `curr` is put behind the nearest FREE block. `next_free` of `curr` is
set when `relink` says so. -/
def enlist (fuel : Nat) (s : State) (curr : Int) (relink : Bool) :
    Option State := do
  let prev ← s.prev curr
  let prevFree ← nearestFree s fuel prev
  if prevFree ≠ NULL then do
    let s ← if relink then do
        let nextFree ← s.nextFree prevFree
        s.setNextFree curr nextFree
      else some s
    s.setNextFree prevFree curr
  else do
    let s ← if relink then s.setNextFree curr s.headFree else some s
    some { s with headFree := curr }

/-- The freed block's place in the two cached pointers. -/
def recache (s : State) (curr : Int) : Option State :=
  if s.largest ≠ NULL ∧ s.secondLargest ≠ NULL then do
    let size ← getBlockSize s curr
    let sizeOfLargest ← getBlockSize s s.largest
    if size > sizeOfLargest then
      some { s with secondLargest := s.largest, largest := curr }
    else do
      let sizeOfSecond ← getBlockSize s s.secondLargest
      some (if size > sizeOfSecond then { s with secondLargest := curr } else s)
  else some s

/-- `Mem_Free` once the pointer is known to be valid. -/
def freeBlock (fuel : Nat) (s : State) (curr coalesce : Int) :
    Option (Int × State) := do
  let toFreeSize ← getBlockSize s curr
  if toFreeSize = RETURN_WITH_ERROR then some (0, s)
  else do
    let s ← giveBack s curr toFreeSize
    let (curr, flag, s) ← coalesceFreed s curr coalesce
    let s ← s.setStatus curr FREE
    let s ← enlist fuel s curr (decide (coalesce = 0) || flag)
    let s ← recache s curr
    some (RETURN_SUCCESS, s)

/-- The global pass that a freeing call makes first, if one is pending. -/
def pendingCoalesce (fuel : Nat) (s : State) (coalesce : Int) :
    Option State :=
  if s.needGlobalCoalesce = TRUE ∧ coalesce ≠ 0 then coalesceAll fuel s
  else some s

/-- `Mem_Free`. -/
def memFree (fuel : Nat) (s : State) (ptr coalesce : Int) :
    Option (Int × State) :=
  if ptr = NULL then
    if coalesce ≠ FALSE then do
      let s ← coalesceAll fuel s
      some (RETURN_SUCCESS, s)
    else some (RETURN_SUCCESS, s)
  else do
    let s ← pendingCoalesce fuel s coalesce
    let s := if coalesce = 0 then { s with needGlobalCoalesce := TRUE } else s
    let valid ← isValidAddr s ptr
    if valid then freeBlock fuel s (getHeader ptr) coalesce
    else some (RETURN_WITH_ERROR, s)

-- ============================================================== Mem_Dump

/-- `Mem_Dump`'s loop from `temp` on: whether each block is allocated, and
its size. -/
def dumpFrom (s : State) : (fuel : Nat) → (temp : Int) →
    Option (List (Bool × Int))
  | 0, _ => none
  | fuel + 1, temp =>
      if temp = NULL then some []
      else do
        let status ← s.status temp
        let size ← getBlockSize s temp
        let nextFree ← s.nextFree temp
        let rest ← dumpFrom s fuel nextFree
        some ((decide (status ≠ 0), size) :: rest)

/-- `Mem_Dump`. -/
def memDump (fuel : Nat) (s : State) : Option (List (Bool × Int)) :=
  if ¬s.ready then none else dumpFrom s fuel s.headFree

end OperatingSystem.Heap
