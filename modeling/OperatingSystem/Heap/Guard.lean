/-
The steps at which the allocator goes wrong, as conditions on the state
before the step.

# Mem_Alloc

- The fast path takes the cached largest block without comparing its size
  with the request (`AllocOk.fits`, `LastFits`).
- A block taken whole is unlinked from the free list only if it is the
  first (`AllocOk.unlinks`).
- `round_to` computes in `int` (`AllocOk.rounds`).

# my_coalesce and its caller

- The block that goes is compared with the cached pointers after `next` has
  been redirected, so the wrong block is compared (`StaleCache`).
- `Mem_Free` rereads the free list after the freed block has absorbed the
  next one only, and links it to the header that is gone (`DanglingLink`).
- A block that is last already grows by its own size, and a merge counts
  the absorbed headers of earlier merges as room for data
  (`GrowsInside`).
-/
import OperatingSystem.Heap.Basic

namespace OperatingSystem.Heap

variable (fuel : Nat) (s : State)

-- ============================================================ neighbours

/-- The block behind `p` is `x` and FREE. -/
def FreeAfter (p x : Int) : Prop :=
  s.next p = some x ∧ x ≠ NULL ∧ s.status x = some FREE

/-- The block before `p` is `w` and FREE. -/
def FreeBefore (p w : Int) : Prop :=
  s.prev p = some w ∧ w ≠ NULL ∧ s.status w = some FREE

/-- The free list, from the nearest FREE block before `p` or else from
`head_free`, leads to `x`. -/
def LeadsTo (p x : Int) : Prop :=
  ∃ fuel prev q, s.prev p = some prev ∧ nearestFree s fuel prev = some q
    ∧ if q = NULL then s.headFree = x else s.nextFree q = some x

-- ============================================================ coalescing

/-- `my_coalesce` on `p` makes the header at `largest` vanish, and
`second_largest` is set, so that the next `Mem_Alloc` trusts both. -/
def StaleCache (p : Int) : Prop :=
  s.secondLargest ≠ NULL
    ∧ (FreeAfter s p s.largest ∨ p = s.largest ∧ ∃ w, FreeBefore s p w)

/-- The freed block at `p` absorbs only the next block, and the free list
leads there: this is what `Mem_Free` then stores as its `next_free`. -/
def DanglingLink (p : Int) : Prop :=
  ∃ x, FreeAfter s p x ∧ (¬∃ w, FreeBefore s p w) ∧ LeadsTo s p x

/-- If `my_coalesce` on `p` yields the last block, that block, with the
size that is then recorded for it and cut into blocks of eight bytes with a
header each, still ends inside the mapped region. -/
def GrowsInside (p : Int) : Prop :=
  ∀ x size, s.next p = some x → getBlockSize s p = some size →
    x = NULL ∨ FreeAfter s p x ∧ s.next x = some NULL →
    (∀ w, FreeBefore s p w →
      w + 5 * (s.lastBlockSize + size + (p - (w + BLOCK_HEADER)))
        ≤ s.globalHead + s.actualSize)
      ∧ ((¬∃ w, FreeBefore s p w) →
        p + 5 * (s.lastBlockSize + size) ≤ s.globalHead + s.actualSize)

/-- `last_block_size` is a size, far from overflowing: below `2 ^ 61`. -/
def InRange (_ : Int) : Prop :=
  0 ≤ s.lastBlockSize ∧ s.lastBlockSize < 2305843009213693952

/-- The calls `my_coalesce(temp)` that a pass from `temp` on makes, each
with the state it finds. -/
def passCalls : (fuel : Nat) → (temp : Int) → State → List (State × Int)
  | 0, _, _ => []
  | fuel + 1, temp, s =>
      if temp = NULL then []
      else
        match s.status temp with
        | none => []
        | some status =>
            if status = FREE then
              (s, temp) ::
                match myCoalesce s temp with
                | none => []
                | some (merged, s') =>
                    match s'.nextFree merged with
                    | none => []
                    | some nextFree => passCalls fuel nextFree s'
            else
              match s.nextFree temp with
              | none => []
              | some nextFree => passCalls fuel nextFree s

/-- The state in which `Mem_Free` calls `my_coalesce` on the block it
frees, if it comes to that, `s` being the state once a pending pass is
done. -/
def freedState (p : Int) : Option State := do
  let toFreeSize ← getBlockSize s p
  if toFreeSize = RETURN_WITH_ERROR then none else giveBack s p toFreeSize

-- =============================================================== Mem_Free

/-- `Mem_Free(ptr, coalesce)` takes none of the branches that damage the
free list or the cached pointers; `okPass` and `okFreed` are what else is
asked of its calls of `my_coalesce`. -/
structure FreeOk (okPass okFreed : State → Int → Prop)
    (ptr coalesce : Int) : Prop where
  /-- The calls of a global pass. -/
  pass : coalesce ≠ 0 → (ptr = NULL ∨ s.needGlobalCoalesce = TRUE) →
    ∀ c ∈ passCalls fuel s.head s, ¬StaleCache c.1 c.2 ∧ okPass c.1 c.2
  /-- The call for the freed block. -/
  freed : coalesce ≠ 0 → ptr ≠ NULL → ∀ s₁ s₂,
    pendingCoalesce fuel s coalesce = some s₁ →
    freedState s₁ (getHeader ptr) = some s₂ →
    ¬StaleCache s₂ (getHeader ptr) ∧ ¬DanglingLink s₂ (getHeader ptr)
      ∧ okFreed s₂ (getHeader ptr)

-- ============================================================== Mem_Alloc

/-- `Mem_Alloc` takes the fast path, to a block of `sizeOfLargest`
bytes. -/
def FastPath (sizeOfLargest : Int) : Prop :=
  s.largest ≠ NULL ∧ s.secondLargest ≠ NULL
    ∧ getBlockSize s s.largest = some sizeOfLargest
    ∧ ∃ sizeOfSecond, getBlockSize s s.secondLargest = some sizeOfSecond
      ∧ sizeOfLargest ≥ sizeOfSecond

/-- `Mem_Alloc(size)`, not refused for lack of bytes, takes none of the
branches that damage the heap. -/
structure AllocOk (size : Int) : Prop where
  rounds : size ≤ 2147483640
  /-- The fast path does not overrun the block behind it. -/
  fits : ∀ sizeOfLargest next, FastPath s sizeOfLargest →
    s.next s.largest = some next → next ≠ NULL →
    roundTo size BLOCK_SIZE ≤ sizeOfLargest
  /-- If the chosen block is taken whole, no FREE block in front of it has
  it as `next_free`. -/
  unlinks : ∀ c next, search s fuel (roundTo size BLOCK_SIZE) = some c →
    c.sizeToAllocate ≠ -1 → s.next c.nextToAllocate = some next →
    ¬splits next c (roundTo size BLOCK_SIZE) → c.prevFree ≠ NULL →
    s.nextFree c.prevFree ≠ some c.nextToAllocate

/-- The fast path does not overrun the recorded size of the last block. -/
def LastFits (size : Int) : Prop :=
  ∀ sizeOfLargest, FastPath s sizeOfLargest → s.next s.largest = some NULL →
    roundTo size BLOCK_SIZE ≤ sizeOfLargest

end OperatingSystem.Heap
