/-
Which block numbers the inode loop follows, and which blocks it writes.

# The trace

`copies` beside each loop lists the block copies that the loop attempts
from a given state, in order: the block of `whole_buffer` it follows a
number to and the block of `dest_buffer` it writes. The last one may be an
attempt that fails, so the trace says what a run does also where it goes
wrong.

A loop that comes through has copied exactly the blocks it needs, in
pre-order, to consecutive numbers (`copiesFrom`), and after them the spare
block of a file that exactly fills a level. Its number is whatever the
inode holds in a field the file does not use, so a well-formed image does
not keep it in range.
-/
import OperatingSystem.Defrag.FreeList

namespace OperatingSystem.Defrag

open Lib (Buffer Root preorder forest preorderRoots nodes)

-- ============================================================= the trace

/-- One `memcpy` of a block: the number followed and the number written. -/
structure BlockCopy where
  source : Int
  target : Int
  deriving DecidableEq, Repr

section Trace

variable (g : Regions) (whole : Buffer)

/-- The copy of `copyData`. -/
def dataCopies (slot : Int) (s : State) : List BlockCopy :=
  (s.dest.loadInt slot).elim [] fun ptr => [⟨ptr, s.blockIndex⟩]

/-- The copy of `copyIndex` and those of the loop over what it copied. -/
def indexCopies (next : Int → State → List BlockCopy) (ptr slot : Int)
    (s : State) : List BlockCopy :=
  ⟨ptr, s.blockIndex⟩
    :: (copyIndex g whole ptr slot s).elim [] fun r => next r.1 r.2

/-- The copies of `forSlots`, given those of its body. -/
def slotCopies (stop : State → Bool) (body : Nat → State → Option State)
    (copies : Nat → State → List BlockCopy) :
    (j count : Nat) → State → List BlockCopy
  | _, 0, _ => []
  | j, count + 1, s =>
      if stop s then []
      else copies j s
        ++ (body j s).elim [] (slotCopies stop body copies (j + 1) count)

/-- The copies of `currBlock`. -/
def blockCopies : Nat → Int → State → List BlockCopy
  | 0, currBlock =>
      slotCopies fileDone
        (fun k => copyData g whole (currBlock + INT_SIZE * k))
        (fun k => dataCopies (currBlock + INT_SIZE * k)) 0 g.numIntInBlock
  | d + 1, currBlock =>
      slotCopies fileDoneOrFinished
        (fun j s => do
          let slot := currBlock + INT_SIZE * j
          let ptr ← s.dest.loadInt slot
          let (below, s) ← copyIndex g whole ptr slot s
          Defrag.currBlock g whole d below s)
        (fun j s => (s.dest.loadInt (currBlock + INT_SIZE * j)).elim [] fun ptr =>
          indexCopies g whole (blockCopies d) ptr (currBlock + INT_SIZE * j) s)
        0 g.numIntInBlock

/-- The copies of `directBlocks`. -/
def directCopies (curr : Int) : State → List BlockCopy :=
  slotCopies fileDone
    (fun j => copyData g whole (curr + dblocks + INT_SIZE * j))
    (fun j => dataCopies (curr + dblocks + INT_SIZE * j)) 0 N_DBLOCKS

/-- The copies of `lv1Blocks`. -/
def lv1Copies (curr : Int) (s : State) : List BlockCopy :=
  if s.finished then []
  else
    slotCopies fileDoneOrFinished
      (fun j s => do
        let slot := curr + iblocks + INT_SIZE * j
        let ptr ← whole.loadInt slot
        let (below, s) ← copyIndex g whole ptr slot s
        currBlockLv1 g whole below s)
      (fun j s => (whole.loadInt (curr + iblocks + INT_SIZE * j)).elim []
        fun ptr => indexCopies g whole (blockCopies g whole 0) ptr
          (curr + iblocks + INT_SIZE * j) s)
      0 N_IBLOCKS s

/-- The copies of `topBlock`, the loop in it being `currBlock d`. -/
def topCopies (d : Nat) (slot : Int) (s : State) : List BlockCopy :=
  if s.finished then []
  else (whole.loadInt slot).elim [] fun ptr =>
    indexCopies g whole (blockCopies g whole d) ptr slot s

/-- The copies of `copyFile`. -/
def fileCopies (curr : Int) (s : State) : List BlockCopy :=
  (s.dest.loadInt (curr + size)).elim [] fun fileSize =>
    let s := { s with finished := false, thisFileSize := fileSize }
    directCopies g whole curr s
      ++ (directBlocks g whole curr s).elim [] fun s =>
        lv1Copies g whole curr s
          ++ (lv1Blocks g whole curr s).elim [] fun s =>
            topCopies g whole 1 (curr + i2block) s
              ++ (lv2Block g whole curr s).elim [] fun s =>
                topCopies g whole 2 (curr + i3block) s

/-- The copies of `copyInode`. -/
def inodeCopies (i : Nat) (s : State) : List BlockCopy :=
  (s.dest.memcpy (g.inode i) whole (g.inode i) INODE_SIZE).elim [] fun dest =>
    (dest.loadInt (g.inode i + nlink)).elim [] fun links =>
      if links = 0 then []
      else fileCopies g whole (g.inode i) { s with dest, thisFileSize := 0 }

/-- The copies of `inodesFrom`. -/
def copiesOfInodes : (i count : Nat) → State → List BlockCopy
  | _, 0, _ => []
  | i, count + 1, s =>
      inodeCopies g whole i s
        ++ (copyInode g whole i s).elim [] (copiesOfInodes (i + 1) count)

/-- The copies of `inodeLoop`. -/
def inodeLoopCopies : List BlockCopy :=
  ((Buffer.zero whole.size).memcpy 0 whole 0 g.inodeBegin).elim [] fun dest =>
    copiesOfInodes g whole 0 g.numInode.toNat {
      dest, blockIndex := 0, thisFileSize := 0, finished := false
      dataFile := [] }

end Trace

-- ======================================================== the statements

/-- The inode loop comes through, and every number it follows and every
block it writes is one of the data region. -/
structure StaysInside (g : Regions) (whole : Buffer) : Prop where
  runs : ∃ s, inodeLoop g whole = some s
  follows : ∀ c ∈ inodeLoopCopies g whole,
    0 ≤ c.source ∧ c.source < dataBlocks whole
  writes : ∀ c ∈ inodeLoopCopies g whole,
    0 ≤ c.target ∧ c.target < dataBlocks whole

/-- The pointers of the live files that exactly fill a level, as far as
they are followed without being needed, are block numbers. -/
def SparesInRange (g : Regions) (whole : Buffer) : Prop :=
  ∀ i ∈ liveInodes g whole,
    ∀ o ∈ spareSlots g.numIntInBlock (fileLength g whole (g.inode i)),
      0 ≤ whole.int (g.inode i + o)
        ∧ whole.int (g.inode i + o) < dataBlocks whole

variable {g : Regions} {whole : Buffer} {s s' t : State} {n d : Nat}
  {slot ptr base curr : Int}

-- ================================================= copies to new numbers

/-- The blocks `us`, copied to the numbers from `b` on. -/
def copiesFrom : Int → List Int → List BlockCopy
  | _, [] => []
  | b, u :: us => ⟨u, b⟩ :: copiesFrom (b + 1) us

theorem copiesFrom_append (b : Int) (us vs : List Int) :
    copiesFrom b (us ++ vs)
      = copiesFrom b us ++ copiesFrom (b + us.length) vs := by
  induction us generalizing b with
  | nil => simp [copiesFrom]
  | cons u us ih =>
      rw [List.cons_append, copiesFrom, copiesFrom, ih, List.cons_append,
        List.length_cons]
      push_cast
      rw [Int.add_assoc, Int.add_comm 1]

/-- What is copied, and where to. -/
theorem mem_copiesFrom {c : BlockCopy} {b : Int} {us : List Int}
    (h : c ∈ copiesFrom b us) :
    c.source ∈ us ∧ b ≤ c.target ∧ c.target < b + us.length := by
  induction us generalizing b with
  | nil => cases h
  | cons u us ih =>
      rw [List.length_cons]
      push_cast
      rcases List.mem_cons.mp h with rfl | h
      · exact ⟨List.mem_cons_self, Int.le_refl b, by dsimp only; omega⟩
      · obtain ⟨hmem, hlo, hhi⟩ := ih h
        exact ⟨List.mem_cons_of_mem u hmem, by omega, by omega⟩

/-- Everything listed is copied. -/
theorem copiesFrom_source {b u : Int} {us : List Int} (h : u ∈ us) :
    ∃ c ∈ copiesFrom b us, c.source = u := by
  induction us generalizing b with
  | nil => cases h
  | cons v us ih =>
      rcases List.mem_cons.mp h with rfl | h
      · exact ⟨_, List.mem_cons_self, rfl⟩
      · obtain ⟨c, hc, hsource⟩ := ih (b := b + 1) h
        exact ⟨c, List.mem_cons_of_mem _ hc, hsource⟩

/-- Every number is written. -/
theorem copiesFrom_target {b k : Int} {us : List Int} (hlo : b ≤ k)
    (hhi : k < b + us.length) : ∃ c ∈ copiesFrom b us, c.target = k := by
  induction us generalizing b with
  | nil =>
      rw [List.length_nil] at hhi
      omega
  | cons v us ih =>
      rw [List.length_cons] at hhi
      push_cast at hhi
      by_cases hk : b = k
      · exact ⟨_, List.mem_cons_self, hk⟩
      · obtain ⟨c, hc, htarget⟩ := ih (b := b + 1) (by omega) (by omega)
        exact ⟨c, List.mem_cons_of_mem _ hc, htarget⟩

-- ===================================================== slots and rows

/-- A data block. -/
theorem dataCopies_eq (h : copyData g whole slot s = some s') :
    dataCopies slot s = copiesFrom s.blockIndex [s.dest.int slot] := by
  simp only [copyData, Option.bind_eq_bind, Option.bind_eq_some_iff] at h
  obtain ⟨ptr, hload, -⟩ := h
  have hptr := (Buffer.loadInt_eq_some hload).2
  unfold dataCopies
  rw [hload, hptr]
  rfl

/-- What a loop below an index block copies. -/
def TracesRow (g : Regions) (whole : Buffer) (n d : Nat)
    (loop : Int → State → Option State)
    (copies : Int → State → List BlockCopy) : Prop :=
  ∀ (base : Int) (kids : Nat → Int) (s s' : State), Sane g whole.size s →
    base + 4 * n ≤ g.blockAt s.blockIndex →
    (∀ j, j < n → s.dest.int (base + INT_SIZE * j) = kids j) →
    loop base s = some s' →
    copies base s = copiesFrom s.blockIndex
      (forest (preorder (rawChild g whole) n d) (n ^ d) kids n (remaining g s))

/-- An index block, then what is below it. -/
theorem indexCopies_eq (hB : Bounds g whole.size n)
    {next : Int → State → Option State}
    {copies : Int → State → List BlockCopy}
    (hnext : TracesRow g whole n d next copies) (hs : Sane g whole.size s)
    (hslot : slot + 4 ≤ g.blockAt s.blockIndex) {below : Int}
    (hcopy : copyIndex g whole ptr slot s = some (below, t))
    (h : next below t = some s') :
    indexCopies g whole copies ptr slot s
      = copiesFrom s.blockIndex
        (preorder (rawChild g whole) n (d + 1) ptr (remaining g s)) := by
  obtain ⟨hbelow, hw, -, hsize, -, -⟩ := copyIndex_spec hB hs hslot hcopy
  have hr : remaining g t = remaining g s := by
    unfold remaining
    rw [hsize]
  have hkids := hw.slots hB
  rw [← hbelow] at hkids
  have htrace := hnext below (rawChild g whole ptr) t s' hw.sane
    (by rw [hw.index, blockAt_succ, hbelow, hB.ints]) hkids h
  unfold indexCopies
  rw [hcopy, Option.elim_some, htrace, hr, hw.index, preorder, copiesFrom]

/-- A loop over a row of slots, given what its body copies for one. -/
theorem slotCopies_eq (hB : Bounds g whole.size n) {stop : State → Bool}
    {body : Nat → State → Option State}
    {copies : Nat → State → List BlockCopy}
    (hstop : ∀ s, Sane g whole.size s →
      (stop s = true ↔ s.thisFileSize ≤ 0)) :
    ∀ {count j : Nat} {base : Int} {kids : Nat → Int} {s s' : State},
      (∀ i, i < count → ∀ t t', Sane g whole.size t → 0 < t.thisFileSize →
        base + 4 * count ≤ g.blockAt t.blockIndex →
        t.dest.int (base + INT_SIZE * i) = kids i →
        body (j + i) t = some t' →
        SlotPost g whole n d (base + INT_SIZE * i) (kids i) t t'
          ∧ copies (j + i) t = copiesFrom t.blockIndex
            (preorder (rawChild g whole) n d (kids i) (remaining g t))) →
      Sane g whole.size s → base + 4 * count ≤ g.blockAt s.blockIndex →
      (∀ i, i < count → s.dest.int (base + INT_SIZE * i) = kids i) →
      forSlots stop body j count s = some s' →
      slotCopies stop body copies j count s = copiesFrom s.blockIndex
        (forest (preorder (rawChild g whole) n d) (n ^ d) kids count
          (remaining g s)) := by
  intro count
  induction count with
  | zero => intros; rfl
  | succ count ih =>
      intro j base kids s s' hbody hs hbase hkids h
      unfold forSlots at h
      unfold slotCopies
      by_cases hst : stop s = true
      · have hr : remaining g s = 0 :=
          (blocksFor_eq_zero hB).mpr ((hstop s hs).mp hst)
        rw [if_pos hst, hr, Lib.forest_zero]
        rfl
      rw [if_neg hst] at h ⊢
      have hleft : 0 < s.thisFileSize := by
        by_contra hno
        exact hst ((hstop s hs).mpr (by omega))
      have hr : remaining g s ≠ 0 := fun hr => by
        have := (blocksFor_eq_zero hB).mp hr
        omega
      split at h
      case h_1 => cases h
      case h_2 t ht =>
        obtain ⟨h₁, htrace⟩ := hbody 0 (Nat.succ_pos count) s t hs hleft hbase
          (hkids 0 (Nat.succ_pos count)) ht
        rw [show base + INT_SIZE * (0 : Nat) = base by simp] at h₁
        have hslot (i : Nat) : base + 4 + INT_SIZE * i
            = base + INT_SIZE * (i + 1 : Nat) := by
          unfold INT_SIZE
          push_cast
          ring
        have hindex := h₁.index
        have hmono := hB.blockAt_mono (show s.blockIndex ≤ t.blockIndex by
          omega)
        push_cast at hbase
        -- the later slots still hold what they held
        have hlater : ∀ i, i < count →
            t.dest.int (base + 4 + INT_SIZE * i) = kids (i + 1) := by
          intro i hi
          rw [← hkids (i + 1) (by omega), ← hslot]
          refine Buffer.int_congr fun x hlo hhi => ?_
          unfold INT_SIZE at hlo hhi
          exact h₁.frame x (by omega) (.inr (by omega))
        have hrest := ih ?_ h₁.sane (by omega) hlater h
        · rw [ht, Option.elim_some, hrest, show j = j + 0 from rfl, htrace,
            forest, if_neg hr, copiesFrom_append, Lib.preorder_length,
            h₁.remaining, hindex]
        · intro i hi u u' hu hleft' hbase' hkid hbody'
          rw [hslot] at hkid ⊢
          rw [show j + 1 + i = j + (i + 1) by omega] at hbody' ⊢
          exact hbody (i + 1) (by omega) u u' hu hleft'
            (by push_cast; omega) hkid hbody'

/-- The loops below an index block, whatever its depth. -/
theorem blockCopies_eq (hB : Bounds g whole.size n) :
    ∀ d, TracesRow g whole n d (currBlock g whole d)
      (blockCopies g whole d) := by
  intro d
  induction d with
  | zero =>
      intro base kids s s' hs hbase hkids h
      unfold currBlock currBlockLv1 at h
      unfold blockCopies
      rw [hB.numInts] at h ⊢
      refine slotCopies_eq hB (fun s _ => fileDone_iff s) ?_ hs hbase hkids h
      intro i hi t t' ht hleft hroom hkid hbody
      rw [Nat.zero_add] at hbody ⊢
      rw [← hkid]
      refine ⟨copyData_spec hB ht ?_ hleft hbody, dataCopies_eq hbody⟩
      unfold INT_SIZE
      omega
  | succ d ih =>
      intro base kids s s' hs hbase hkids h
      unfold currBlock currBlockOver at h
      unfold blockCopies
      rw [hB.numInts] at h ⊢
      refine slotCopies_eq hB (fun s hs => fileDoneOrFinished_iff hs) ?_ hs
        hbase hkids h
      intro i hi t t' ht _ hroom hkid hbody
      rw [Nat.zero_add] at hbody ⊢
      simp only [Option.bind_eq_bind, Option.bind_eq_some_iff,
        Prod.exists] at hbody
      obtain ⟨ptr, hload, below, u, hcopy, hnext⟩ := hbody
      have hptr := (Buffer.loadInt_eq_some hload).2
      have hslot : base + INT_SIZE * i + 4 ≤ g.blockAt t.blockIndex := by
        unfold INT_SIZE
        omega
      rw [← hkid, ← hptr, hload]
      exact ⟨slot_of_index hB (currBlock_copies hB d) ht hslot hcopy hnext,
        indexCopies_eq hB ih ht hslot hcopy hnext⟩

-- =============================================================== one file

/-- The direct pointers. -/
theorem directCopies_eq (hB : Bounds g whole.size n)
    (hs : Sane g whole.size s)
    (hroom : curr + dblocks + 4 * N_DBLOCKS ≤ g.blockAt s.blockIndex)
    (hsame : Buffer.SameOn whole s.dest (curr + dblocks) (4 * N_DBLOCKS))
    (h : directBlocks g whole curr s = some s') :
    directCopies g whole curr s = copiesFrom s.blockIndex
      (rowBlocks g whole n 0 (curr + dblocks) N_DBLOCKS (remaining g s)) := by
  refine slotCopies_eq hB (fun s _ => fileDone_iff s) ?_ hs hroom
    (slots_of_sameOn hsame) h
  intro i hi t t' ht hleft hroom' hkid hbody
  rw [Nat.zero_add] at hbody ⊢
  rw [← hkid]
  refine ⟨copyData_spec hB ht ?_ hleft hbody, dataCopies_eq hbody⟩
  unfold INT_SIZE
  omega

/-- The single indirect pointers. -/
theorem lv1Copies_eq (hB : Bounds g whole.size n)
    (hs : Sane g whole.size s)
    (hroom : curr + iblocks + 4 * N_IBLOCKS ≤ g.blockAt s.blockIndex)
    (hsame : Buffer.SameOn whole s.dest (curr + iblocks) (4 * N_IBLOCKS))
    (h : lv1Blocks g whole curr s = some s') :
    lv1Copies g whole curr s = copiesFrom s.blockIndex
      (rowBlocks g whole n 1 (curr + iblocks) N_IBLOCKS (remaining g s)) := by
  unfold lv1Blocks at h
  unfold lv1Copies
  split at h
  case isTrue hfin =>
    have hr : remaining g s = 0 := (blocksFor_eq_zero hB).mpr (hs.flag hfin)
    rw [if_pos hfin, hr]
    unfold rowBlocks
    rw [Lib.forest_zero]
    rfl
  case isFalse hfin =>
    rw [if_neg hfin]
    refine slotCopies_eq hB (fun s hs => fileDoneOrFinished_iff hs) ?_ hs hroom
      (slots_of_sameOn hsame) h
    intro i hi t t' ht _ hroom' _ hbody
    rw [Nat.zero_add] at hbody ⊢
    simp only [Option.bind_eq_bind, Option.bind_eq_some_iff,
      Prod.exists] at hbody
    obtain ⟨ptr, hload, below, u, hcopy, hnext⟩ := hbody
    have hptr := (Buffer.loadInt_eq_some hload).2
    have hslot : curr + iblocks + INT_SIZE * i + 4 ≤ g.blockAt t.blockIndex := by
      unfold INT_SIZE
      omega
    rw [← hptr, hload]
    exact ⟨slot_of_index hB (currBlock_copies hB 0) ht hslot hcopy hnext,
      indexCopies_eq hB (blockCopies_eq hB 0) ht hslot hcopy hnext⟩

/-- The double and the triple indirect pointer: nothing when the file is
finished, one block when nothing is left of it. -/
theorem topCopies_eq (base : Int) (hB : Bounds g whole.size n)
    (hs : Sane g whole.size s) (hroom : base + 4 ≤ g.blockAt s.blockIndex)
    (h : topBlock g whole (currBlock g whole d) base s = some s') :
    topCopies g whole d base s = copiesFrom s.blockIndex
      (if s.finished = true then []
        else preorder (rawChild g whole) n (d + 1) (whole.int base)
          (remaining g s)) := by
  unfold topBlock at h
  unfold topCopies
  split at h
  case isTrue hfin =>
    rw [if_pos hfin, if_pos hfin]
    rfl
  case isFalse hfin =>
    simp only [Option.bind_eq_bind, Option.bind_eq_some_iff, Prod.exists] at h
    obtain ⟨ptr, hload, below, u, hcopy, hnext⟩ := h
    have hptr := (Buffer.loadInt_eq_some hload).2
    rw [if_neg hfin, if_neg hfin, hload, Option.elim_some, ← hptr]
    exact indexCopies_eq hB (blockCopies_eq hB d) hs hroom hcopy hnext

/-- The blocks the loop takes for the inode at `curr`: the needed ones and
the spare one. -/
def fileFollowed (g : Regions) (whole : Buffer) (n : Nat) (curr : Int) :
    List Int :=
  rawBlocks g whole n curr
    ++ (spareSlots n (fileLength g whole curr)).map fun o =>
      whole.int (curr + o)

/-- A top index block: the row of its slot if it is needed, the block
alone if it is spare. -/
theorem top_row (g : Regions) (whole : Buffer) (n d : Nat) (base : Int)
    {r : Nat} {fin : Bool} (hfin : fin = true → r = 0) :
    (if fin = true then []
        else preorder (rawChild g whole) n (d + 1) (whole.int base) r)
      = rowBlocks g whole n (d + 1) base 1 r
        ++ if ¬fin = true ∧ r = 0 then [whole.int base] else [] := by
  by_cases hr : r = 0
  · have hrow : rowBlocks g whole n (d + 1) base 1 r = [] := by
      rw [hr]
      exact Lib.forest_zero _ _ _ _
    rw [hrow, hr, preorder_zero]
    cases fin <;> simp
  · rw [if_neg fun h => hr (hfin h), if_neg fun h => hr h.2,
      rowBlocks_one g whole n (d + 1) base hr, List.append_nil]

/-- The two top index blocks of a file, and with them the spare one. -/
theorem top_followed (hB : Bounds g whole.size n) {s₀ s₁ s₂ s₃ : State}
    (h : FilePhases g whole n curr s₀ s₁ s₂ s₃ s') :
    ((if s₂.finished = true then [] else preorder (rawChild g whole) n 2
          (whole.int (curr + i2block)) (remaining g s₂))
        ++ if s₃.finished = true then [] else preorder (rawChild g whole) n 3
          (whole.int (curr + i3block)) (remaining g s₃))
      = rowBlocks g whole n 2 (curr + i2block) 1 (remaining g s₂)
        ++ rowBlocks g whole n 3 (curr + i3block) 1 (remaining g s₃)
        ++ (spareSlots n (fileLength g whole curr)).map fun o =>
          whole.int (curr + o) := by
  obtain ⟨r₂, f₂⟩ := h.flags
  obtain ⟨r₃, f₃⟩ := h.flags_lv2 hB h.lv2
  have hsq := Nat.pow_pos (n := 2) hB.pos
  -- when each of them is spare
  have e₂ : ¬s₂.finished = true ∧ remaining g s₂ = 0
      ↔ fileLength g whole curr = 10 + 4 * n := by
    rw [f₂, r₂]
    omega
  have e₃ : ¬s₃.finished = true ∧ remaining g s₃ = 0
      ↔ fileLength g whole curr = 10 + 4 * n + n ^ 2 := by
    rw [f₃, r₃]
    omega
  rw [top_row g whole n 1 (curr + i2block) fun hf => by
      have := f₂.mp hf
      omega,
    top_row g whole n 2 (curr + i3block) fun hf => by
      have := f₃.mp hf
      omega,
    if_congr e₂ rfl rfl, if_congr e₃ rfl rfl, r₂, r₃]
  generalize fileLength g whole curr = len
  by_cases h₂ : len = 10 + 4 * n
  · -- the double indirect block is the last one
    have hrow : rowBlocks g whole n 3 (curr + i3block) 1
        (len - (10 + 4 * n + n ^ 2)) = [] := by
      rw [show len - (10 + 4 * n + n ^ 2) = 0 by omega]
      exact Lib.forest_zero _ _ _ _
    rw [spareSlots_lv2 h₂, if_pos h₂, if_neg (by omega), hrow]
    simp
  · rw [if_neg h₂, List.append_nil, ← List.append_assoc]
    congr 1
    by_cases h₃ : len = 10 + 4 * n + n ^ 2
    · rw [spareSlots_lv3 hB.pos h₃, if_pos h₃]
      rfl
    · rw [if_neg h₃]
      unfold spareSlots
      rw [if_neg (by simpa only [N_DBLOCKS, N_IBLOCKS] using h₂),
        if_neg (by simpa only [N_DBLOCKS, N_IBLOCKS] using h₃)]
      rfl

/-- How many blocks a top index block and what is below it take. -/
theorem TopPost.index_length {s₂ s₃ : State}
    (h : TopPost g whole n d base s₂ s₃) :
    s₃.blockIndex = s₂.blockIndex
      + (if s₂.finished = true then []
          else preorder (rawChild g whole) n (d + 1) (whole.int base)
            (Defrag.remaining g s₂)).length := by
  unfold TopPost at h
  split at h
  case isTrue hfin =>
    rw [if_pos hfin, h]
    simp
  case isFalse hfin => rw [if_neg hfin, Lib.preorder_length, h.index]

/-- The needed blocks, by what is left when each group is looked at. -/
theorem FilePhases.rawBlocks (hB : Bounds g whole.size n)
    {s₀ s₁ s₂ s₃ : State} (h : FilePhases g whole n curr s₀ s₁ s₂ s₃ s') :
    rawBlocks g whole n curr
      = rowBlocks g whole n 0 (curr + dblocks) N_DBLOCKS (Defrag.remaining g s₀)
        ++ (rowBlocks g whole n 1 (curr + iblocks) N_IBLOCKS
            (Defrag.remaining g s₁)
          ++ (rowBlocks g whole n 2 (curr + i2block) 1 (Defrag.remaining g s₂)
            ++ rowBlocks g whole n 3 (curr + i3block) 1
              (Defrag.remaining g s₃))) := by
  rw [rawBlocks_eq, h.lv2.remaining hB h.lv1.sane, h.lv1.remaining,
    h.direct.remaining, h.length, Nat.one_mul]

/-- A file that has been copied: the trace. -/
theorem fileCopies_eq (hB : Bounds g whole.size n) (hs : Sane g whole.size s)
    (hroom : curr + INODE_SIZE ≤ g.blockAt s.blockIndex)
    (hsame : Buffer.SameOn whole s.dest curr INODE_SIZE)
    (h : copyFile g whole curr s = some s') :
    fileCopies g whole curr s
      = copiesFrom s.blockIndex (fileFollowed g whole n curr) := by
  obtain ⟨s₀, s₁, s₂, s₃, ⟨hd, hb, -⟩, hp, h₁, h₂, h₃, h₄, fileSize, hload,
    hs₀⟩ := copyFile_phases hB hs hroom hsame h
  have hs₂ := hp.lv1.sane
  have hs₃ := (hp.lv2.root hB hs₂).sane
  have i₁ := hp.direct.index
  have i₂ := hp.lv1.index
  have i₃ := (hp.lv2.root hB hs₂).index
  have m₁ := hB.blockAt_mono (show s₀.blockIndex ≤ s₁.blockIndex by omega)
  have m₂ := hB.blockAt_mono (show s₁.blockIndex ≤ s₂.blockIndex by omega)
  have m₃ := hB.blockAt_mono (show s₂.blockIndex ≤ s₃.blockIndex by omega)
  have hroom₀ := hp.room
  rw [← hd] at hsame
  have h100 : INODE_SIZE = 100 := rfl
  -- group by group
  have c₁ := directCopies_eq hB hp.sane
    (by simp only [dblocks, N_DBLOCKS]; omega)
    (hsame.mono (by simp only [dblocks]; omega)
      (by simp only [dblocks, N_DBLOCKS]; omega)) h₁
  have c₂ := lv1Copies_eq hB hp.direct.sane
    (by simp only [iblocks, N_IBLOCKS]; omega)
    (iblocks_same hp.direct hroom₀ hsame) h₂
  have c₃ := topCopies_eq (curr + i2block) hB hs₂
    (by simp only [i2block]; omega) h₃
  have c₄ := topCopies_eq (curr + i3block) hB hs₃
    (by simp only [i3block]; omega) h₄
  have l₁ : s₁.blockIndex = s₀.blockIndex
      + (rowBlocks g whole n 0 (curr + dblocks) N_DBLOCKS
        (remaining g s₀)).length := by
    unfold rowBlocks
    rw [i₁, Lib.forest_length (Lib.preorder_length _ n 0)]
  have l₂ : s₂.blockIndex = s₁.blockIndex
      + (rowBlocks g whole n 1 (curr + iblocks) N_IBLOCKS
        (remaining g s₁)).length := by
    unfold rowBlocks
    rw [i₂, Lib.forest_length (Lib.preorder_length _ n 1)]
  unfold fileCopies
  rw [hload, Option.elim_some]
  dsimp only
  rw [← hs₀, h₁, Option.elim_some, h₂, Option.elim_some, h₃, Option.elim_some,
    c₁, c₂, c₃, c₄, hp.lv2.index_length, ← copiesFrom_append, l₂,
    ← copiesFrom_append, l₁, ← copiesFrom_append, top_followed hB hp, hb]
  unfold fileFollowed
  rw [hp.rawBlocks hB]
  simp only [List.append_assoc]

-- =============================================================== the loop

/-- The blocks the loop takes for inode `i`. -/
def inodeFollowed (g : Regions) (whole : Buffer) (n i : Nat) : List Int :=
  if Live whole (g.inode i) then fileFollowed g whole n (g.inode i) else []

theorem inodeFollowed_length (g : Regions) (whole : Buffer) (n i : Nat) :
    (inodeFollowed g whole n i).length = inodeTaken g whole n i := by
  unfold inodeFollowed inodeTaken
  split
  case isTrue =>
    unfold fileFollowed rawBlocks fileNodes
    rw [List.length_append, List.length_map, Lib.preorderRoots_length]
  case isFalse => rfl

/-- One iteration of the outmost loop. -/
theorem inodeCopies_eq (hB : Bounds g whole.size n)
    (hs : Sane g whole.size s) {i : Nat} (hi : i < g.numInode.toNat)
    (h : copyInode g whole i s = some s') :
    inodeCopies g whole i s
      = copiesFrom s.blockIndex (inodeFollowed g whole n i) := by
  have hrange := hB.inode_range hi
  have hdata := hB.data_le hs.index
  have h100 : INODE_SIZE = 100 := rfl
  obtain ⟨t, ⟨hcopy, ht⟩, hsane, hindex, -, hsame, -, hfile⟩ :=
    copyInode_cases hs h
  have hin : t.dest.Within (g.inode i + nlink) 4 := by
    have hroom := hsane.room
    rw [hindex] at hroom
    have hsize := hsane.size
    have hinode := hB.inode
    simp only [nlink]
    exact ⟨by omega, by omega, by omega⟩
  have hlinks : t.dest.int (g.inode i + nlink)
      = whole.int (g.inode i + nlink) :=
    Buffer.int_congr (hsame.mono (by simp only [nlink]; omega)
      (by simp only [nlink]; omega))
  unfold inodeCopies inodeFollowed
  rw [hcopy, Option.elim_some, Buffer.loadInt_of_within hin, Option.elim_some,
    hlinks]
  by_cases hlive : Live whole (g.inode i)
  · rw [if_pos hlive] at hfile
    rw [if_neg hlive, if_pos hlive, ← ht,
      fileCopies_eq hB hsane (by rw [hindex]; omega) hsame hfile, hindex]
  · rw [if_pos (not_ne_iff.mp hlive), if_neg hlive]
    rfl

/-- Everything the loop takes from inode `i` on. -/
theorem copiesOfInodes_eq (hB : Bounds g whole.size n) :
    ∀ {count i : Nat} {s s' : State}, Counted g whole n i s →
      i + count = g.numInode.toNat →
      inodesFrom g whole i count s = some s' →
      copiesOfInodes g whole i count s = copiesFrom s.blockIndex
        ((List.range' i count).flatMap (inodeFollowed g whole n)) := by
  intro count
  induction count with
  | zero => intros; rfl
  | succ count ih =>
      intro i s s' h hi hrun
      unfold inodesFrom at hrun
      split at hrun
      case h_1 => cases hrun
      case h_2 t ht =>
        have hstep := h.step hB (by omega) ht
        have hindex : t.blockIndex
            = s.blockIndex + (inodeFollowed g whole n i).length := by
          rw [inodeFollowed_length, hstep.index, h.index, takenBefore_succ]
          push_cast
          rfl
        unfold copiesOfInodes
        rw [ht, Option.elim_some, ih hstep (by omega) hrun,
          inodeCopies_eq hB h.progress.sane (by omega) ht, hindex,
          List.range'_succ, List.flatMap_cons, copiesFrom_append]

/-- Every block the inode loop takes. -/
def followed (g : Regions) (whole : Buffer) (n : Nat) : List Int :=
  (liveInodes g whole).flatMap fun i => fileFollowed g whole n (g.inode i)

/-- Visiting the members that satisfy a condition. -/
theorem flatMap_ite {p : Nat → Prop} [DecidablePred p] (f : Nat → List Int)
    (l : List Nat) : (l.flatMap fun i => if p i then f i else [])
      = (l.filter fun i => p i).flatMap f := by
  induction l with
  | nil => rfl
  | cons i l ih =>
      rw [List.flatMap_cons, ih, List.filter_cons]
      by_cases hi : p i <;> simp [hi]

/-- The trace of an inode loop that comes through. -/
theorem inodeLoopCopies_eq (hB : Bounds g whole.size n)
    (h : inodeLoop g whole = some s) :
    inodeLoopCopies g whole = copiesFrom 0 (followed g whole n) := by
  obtain ⟨dest, hcopy, hopen⟩ := hB.opening
  unfold inodeLoop at h
  rw [hcopy, Option.bind_eq_bind, Option.bind_some] at h
  unfold inodeLoopCopies
  rw [hcopy, Option.elim_some,
    copiesOfInodes_eq hB hopen.counted (Nat.zero_add _) h,
    ← List.range_eq_range']
  unfold inodeFollowed followed liveInodes
  rw [flatMap_ite]

/-- How many there are. -/
theorem followed_length (hwf : WellFormed whole g) :
    ((followed g whole g.numIntInBlock).length : Int)
      = blocksTaken g whole := by
  unfold followed blocksTaken blocksNeeded sparesTaken
  rw [List.length_flatMap, ← Nat.cast_add, ← List.sum_map_add]
  refine congrArg _ (congrArg List.sum (List.map_congr_left fun i hi => ?_))
  unfold fileFollowed
  rw [List.length_append, List.length_map, rawBlocks_eq_fileBlocks hwf hi]

/-- A block that is taken is a needed or a spare one. -/
theorem mem_followed (hwf : WellFormed whole g) {u : Int} :
    u ∈ followed g whole g.numIntInBlock ↔ ∃ i ∈ liveInodes g whole,
      u ∈ fileBlocks g whole (g.inode i)
        ∨ ∃ o ∈ spareSlots g.numIntInBlock (fileLength g whole (g.inode i)),
          whole.int (g.inode i + o) = u := by
  unfold followed fileFollowed
  rw [List.mem_flatMap]
  refine exists_congr fun i => and_congr_right fun hi => ?_
  rw [rawBlocks_eq_fileBlocks hwf hi, List.mem_append, List.mem_map]

/-- What must hold for the loop to come through. -/
theorem inodeLoop_of_spares (hwf : WellFormed whole g)
    (hspares : SparesInRange g whole)
    (hfit : blocksTaken g whole ≤ dataBlocks whole) :
    ∃ s, inodeLoop g whole = some s := by
  refine inodeLoop_of_wellFormed hwf (fun i hi o ho => ?_) hfit
  obtain ⟨hlo, hhi⟩ := hspares i hi o ho
  exact hwf.readable hlo hhi

/-- The inode loop of a well-formed image follows and writes only blocks of
the data region, and so makes no access outside its buffers, if and only if
the pointers of the spare blocks are block numbers and the spare blocks fit
into the data region besides the needed ones. -/
theorem stays_inside_iff (hwf : WellFormed whole g) :
    StaysInside g whole
      ↔ SparesInRange g whole ∧ blocksTaken g whole ≤ dataBlocks whole := by
  constructor
  · rintro ⟨⟨s, hrun⟩, hfollows, hwrites⟩
    rw [inodeLoopCopies_eq hwf.bounds hrun] at hfollows hwrites
    constructor
    · intro i hi o ho
      obtain ⟨c, hc, hsource⟩ := copiesFrom_source (b := 0)
        ((mem_followed hwf).mpr ⟨i, hi, .inr ⟨o, ho, rfl⟩⟩)
      rw [← hsource]
      exact hfollows c hc
    · -- otherwise the block behind the data region would be written
      by_contra hmore
      have hnonneg := hwf.blocks_range.1
      have hlen := followed_length hwf
      obtain ⟨c, hc, htarget⟩ : ∃ c ∈ copiesFrom 0
          (followed g whole g.numIntInBlock), c.target = dataBlocks whole :=
        copiesFrom_target hnonneg (by omega)
      have := (hwrites c hc).2
      omega
  · rintro ⟨hspares, hfit⟩
    obtain ⟨s, hrun⟩ := inodeLoop_of_spares hwf hspares hfit
    refine ⟨⟨s, hrun⟩, ?_, ?_⟩
    all_goals
      rw [inodeLoopCopies_eq hwf.bounds hrun]
      intro c hc
      obtain ⟨hsource, hlo, hhi⟩ := mem_copiesFrom hc
    · obtain ⟨i, hi, hneeded | ⟨o, ho, heq⟩⟩ := (mem_followed hwf).mp hsource
      · exact hwf.in_range i hi _ hneeded
      · rw [← heq]
        exact hspares i hi o ho
    · rw [followed_length hwf] at hhi
      exact ⟨hlo, by omega⟩

-- ============================================================ examples

/-- The theorem for the disk whose one file fills its single indirect
pointers: `i2block` is 0 there. -/
theorem stays_inside_iff_filled : StaysInside filledRegions filled := by
  refine (stays_inside_iff filled_wellFormed).mpr ⟨?_, by decide +kernel⟩
  unfold SparesInRange
  decide +kernel

/-- The same disk with a number in `i2block` that is none of its 109
blocks. -/
def filledWild : Buffer := filled.putInt (1024 + i2block) 200

theorem filledWild_wellFormed : WellFormed filledWild filledRegions := by
  constructor <;> decide +kernel

/-- The file needs no double indirect block, and the loop follows its
pointer. -/
theorem follows_unneeded :
    ¬∀ whole g, WellFormed whole g → StaysInside g whole := by
  intro h
  have hcopy : (⟨200, 18⟩ : BlockCopy)
      ∈ inodeLoopCopies filledRegions filledWild := by
    decide +kernel
  have hfollow := (h filledWild filledRegions filledWild_wellFormed).follows
    ⟨200, 18⟩ hcopy
  have hblocks : dataBlocks filledWild = 109 := by decide +kernel
  rw [hblocks] at hfollow
  exact absurd hfollow.2 (by decide)

end OperatingSystem.Defrag
