/-
The copying loops: what they do to one slot, and to a row of slots.

# The argument

A slot of depth `d` is a pointer to a tree of depth `d`; the four loops
and the loops inside them process a row of slots each. `SlotPost` says
that processing a slot mirrors the needed part of its tree at the numbers
from `block_index` on, `RowPost` that a whole row does. The two are proved
alternately, by induction on the depth: a slot of depth `d + 1` is an index
block copied, then a row of depth `d` inside the copy.

The frame clause carries the induction. A loop writes the slots of its own
row and blocks from its first `block_index` on, nothing else; so what was
mirrored before stays mirrored, and the slots of the row that are still to
come still hold the source's numbers when they are read.
-/
import OperatingSystem.Defrag.Image

namespace OperatingSystem.Defrag

open Lib (Buffer i32 Mirror MirrorSlots leaves forest preorder nodes full
  weigh)

variable {g : Regions} {whole : Buffer} {s s' t : State} {n d : Nat}
  {slot ptr : Int}

-- ========================================================== the counters

/-- What the counters of the loop satisfy between two steps. -/
structure Sane (g : Regions) (fileSize : Int) (s : State) : Prop where
  size : s.dest.size = fileSize
  index : 0 ≤ s.blockIndex
  room : g.blockAt s.blockIndex ≤ fileSize
  left : s.thisFileSize < 2147483648
  flag : s.finished = true → s.thisFileSize ≤ 0

/-- How many logical blocks of the current file are left. -/
def remaining (g : Regions) (s : State) : Nat := g.blocksFor s.thisFileSize

theorem blockAt_succ (g : Regions) (b : Int) :
    g.blockAt (b + 1) = g.blockAt b + g.blockSize := by
  unfold Regions.blockAt
  ring

theorem Bounds.block_pos {fileSize : Int} (hB : Bounds g fileSize n) :
    0 < g.blockSize := by
  have := hB.ints
  have := hB.pos
  omega

theorem Bounds.blockAt_mono {fileSize : Int} (hB : Bounds g fileSize n)
    {b c : Int} (h : b ≤ c) : g.blockAt b ≤ g.blockAt c := by
  have := Int.mul_le_mul_of_nonneg_right h (Int.le_of_lt hB.block_pos)
  unfold Regions.blockAt
  omega

/-- A block that fits is where the program puts it, and its number does
not wrap. -/
theorem Bounds.block_eq {fileSize : Int} (hB : Bounds g fileSize n) {b : Int}
    (hlo : 0 ≤ b) (hroom : g.blockAt b ≤ fileSize) :
    g.block b = g.blockAt b ∧ b < 2147483647 := by
  have hpos := hB.block_pos
  have hnonneg := Int.mul_nonneg hlo (Int.le_of_lt hpos)
  have hle := Int.mul_le_mul_of_nonneg_left (show 1 ≤ g.blockSize by omega) hlo
  have hinode := hB.inode
  have hrec := hB.records
  have hnum := hB.inodes
  have hfile := hB.fileSize
  unfold Regions.blockAt at *
  unfold INODE_SIZE at hrec
  unfold Regions.block
  constructor
  · rw [Lib.i32_of_range (by omega) (by omega)]
  · omega

theorem blocksFor_eq_zero {fileSize size : Int} (hB : Bounds g fileSize n) :
    g.blocksFor size = 0 ↔ size ≤ 0 := by
  have hpos := hB.block_pos
  unfold Regions.blocksFor
  constructor
  · intro h
    by_contra hlt
    have : 1 ≤ (size + g.blockSize - 1) / g.blockSize :=
      (Int.le_ediv_iff_mul_le hpos).mpr (by omega)
    omega
  · intro h
    have : (size + g.blockSize - 1) / g.blockSize < 1 :=
      (Int.ediv_lt_iff_lt_mul hpos).mpr (by omega)
    omega

/-- One block less. -/
theorem blocksFor_sub {fileSize : Int} (hB : Bounds g fileSize n)
    (size : Int) : g.blocksFor (size - g.blockSize) = g.blocksFor size - 1 := by
  have hne : g.blockSize ≠ 0 := Int.ne_of_gt hB.block_pos
  unfold Regions.blocksFor
  rw [show size - g.blockSize + g.blockSize - 1
      = size + g.blockSize - 1 + g.blockSize * -1 by ring,
    Int.add_mul_ediv_left _ _ hne]
  omega

-- ============================================================= one block

/-- Block `v` of the source, byte for byte, is block `w` of `dest`. -/
def Same (g : Regions) (whole dest : Buffer) (v w : Int) : Prop :=
  ∀ x, 0 ≤ x → x < g.blockSize →
    dest.byte (g.blockAt w + x) = whole.byte (g.block v + x)

/-- Slot `j` of index block `v` of the source, where the program finds
it. -/
def rawChild (g : Regions) (whole : Buffer) (v : Int) (j : Nat) : Int :=
  whole.int (g.block v + INT_SIZE * j)

/-- What block `b` of the source holds. -/
def rawBytes (g : Regions) (whole : Buffer) (b : Int) : List UInt8 :=
  whole.slice (g.block b) g.blockSize

/-- Block `v` of the source lies inside the file. -/
def Readable (g : Regions) (whole : Buffer) (v : Int) : Prop :=
  whole.Within (g.block v) g.blockSize

/-- A copied block goes to `block_index`, and there is room for it. -/
theorem copyBlock_spec (hB : Bounds g whole.size n) (hs : Sane g whole.size s)
    (h : copyBlock g whole ptr s = some s') :
    s' = { s with
        dest := s.dest.blit (g.blockAt s.blockIndex) whole (g.block ptr)
          g.blockSize }
      ∧ g.blockAt (s.blockIndex + 1) ≤ whole.size ∧ Readable g whole ptr := by
  simp only [copyBlock, Option.bind_eq_bind, Option.bind_eq_some_iff,
    Option.some.injEq] at h
  obtain ⟨dest, hcopy, rfl⟩ := h
  obtain ⟨⟨-, -, hin⟩, hread, rfl⟩ := Buffer.memcpy_eq_some hcopy
  rw [(hB.block_eq hs.index hs.room).1] at hin ⊢
  rw [blockAt_succ, ← hs.size]
  exact ⟨rfl, hin, hread⟩

/-- What is left of `dest` when block `block_index` and `slot` have been
written. -/
structure Written (g : Regions) (whole : Buffer) (ptr slot : Int)
    (s s' : State) : Prop where
  sane : Sane g whole.size s'
  index : s'.blockIndex = s.blockIndex + 1
  frame : ∀ x, x < g.blockAt s.blockIndex → x < slot ∨ slot + 4 ≤ x →
    s'.dest.byte x = s.dest.byte x
  above : ∀ x, g.blockAt s'.blockIndex ≤ x → s'.dest.byte x = s.dest.byte x
  pointer : s'.dest.int slot = s.blockIndex
  same : Same g whole s'.dest ptr s.blockIndex

/-- Storing the new number behind a copied block. -/
theorem written_of_store (hB : Bounds g whole.size n)
    (hs : Sane g whole.size s) (hslot : slot + 4 ≤ g.blockAt s.blockIndex)
    (hroom : g.blockAt (s.blockIndex + 1) ≤ whole.size)
    (ht : t.dest = (s.dest.blit (g.blockAt s.blockIndex) whole
      (g.block ptr) g.blockSize).putInt slot s.blockIndex)
    (hi : t.blockIndex = i32 (s.blockIndex + 1))
    (hleft : t.thisFileSize < 2147483648)
    (hflag : t.finished = true → t.thisFileSize ≤ 0) :
    Written g whole ptr slot s t := by
  have hlo := hs.index
  have hlt := (hB.block_eq hs.index hs.room).2
  have hpos := hB.block_pos
  have hindex : t.blockIndex = s.blockIndex + 1 := by
    rw [hi, Lib.i32_of_range (by omega) (by omega)]
  constructor
  case sane =>
    refine ⟨?_, by omega, by rw [hindex]; exact hroom, hleft, hflag⟩
    rw [ht, Buffer.putInt_size, Buffer.blit_size, hs.size]
  case index => exact hindex
  case frame =>
    intro x hx hout
    rw [ht, Buffer.putInt_byte_outside hout, Buffer.blit_byte_outside (.inl hx)]
  case above =>
    intro x hx
    rw [hindex, blockAt_succ] at hx
    rw [ht, Buffer.putInt_byte_outside (.inr (by omega)),
      Buffer.blit_byte_outside (.inr hx)]
  case pointer =>
    rw [ht, Buffer.putInt_int, Lib.i32_of_range (by omega) (by omega)]
  case same =>
    intro x hlo hhi
    rw [ht, Buffer.putInt_byte_outside (by omega),
      Buffer.blit_byte_inside (by omega) (by omega)]
    congr 1
    omega

/-- An index block is copied; its slots now hold the source's numbers. -/
theorem copyIndex_spec (hB : Bounds g whole.size n) (hs : Sane g whole.size s)
    (hslot : slot + 4 ≤ g.blockAt s.blockIndex) {below : Int}
    (h : copyIndex g whole ptr slot s = some (below, s')) :
    below = g.blockAt s.blockIndex ∧ Written g whole ptr slot s s'
      ∧ Readable g whole ptr ∧ s'.thisFileSize = s.thisFileSize ∧ s'.finished = s.finished
      ∧ s'.dataFile = s.dataFile := by
  simp only [copyIndex, Option.bind_eq_bind, Option.bind_eq_some_iff,
    Option.some.injEq, Prod.mk.injEq] at h
  obtain ⟨s₁, hcopy, dest, hstore, rfl, rfl⟩ := h
  obtain ⟨rfl, hroom, hread⟩ := copyBlock_spec hB hs hcopy
  obtain ⟨-, rfl⟩ := Buffer.storeInt_eq_some hstore
  exact ⟨(hB.block_eq hs.index hs.room).1,
    written_of_store hB hs hslot hroom rfl rfl hs.left hs.flag, hread, rfl,
    rfl, rfl⟩

/-- The slots of a copied index block. -/
theorem Written.slots (hB : Bounds g whole.size n)
    (h : Written g whole ptr slot s s') : ∀ j, j < n →
      s'.dest.int (g.blockAt s.blockIndex + INT_SIZE * j)
        = rawChild g whole ptr j := by
  intro j hj
  have hints := hB.ints
  refine Buffer.int_eq_of_bytes fun k hlo hhi => ?_
  unfold INT_SIZE
  have := h.same (4 * j + k) (by omega) (by omega)
  rw [Int.add_assoc, this, Int.add_assoc]

-- ==================================================== slots and rows

/-- Processing a slot of depth `d` that holds `v`. -/
structure SlotPost (g : Regions) (whole : Buffer) (n d : Nat) (slot v : Int)
    (s s' : State) : Prop where
  sane : Sane g whole.size s'
  index : s'.blockIndex = s.blockIndex + nodes n d (remaining g s)
  flag : s'.finished = true ↔ s.finished = true ∨ remaining g s < n ^ d
  remaining : remaining g s' = remaining g s - n ^ d
  frame : ∀ x, x < g.blockAt s.blockIndex → x < slot ∨ slot + 4 ≤ x →
    s'.dest.byte x = s.dest.byte x
  above : ∀ x, g.blockAt s'.blockIndex ≤ x → s'.dest.byte x = s.dest.byte x
  pointer : s'.dest.int slot = s.blockIndex
  read : ∀ u ∈ preorder (rawChild g whole) n d v (Defrag.remaining g s),
    Readable g whole u
  mirror : Mirror (Same g whole s'.dest) (rawChild g whole)
    (child g s'.dest) n d v s.blockIndex (Defrag.remaining g s)
  data : s'.dataFile = s.dataFile
    ++ (leaves (rawChild g whole) n d v (Defrag.remaining g s)).flatMap
        (rawBytes g whole)

/-- Processing a row of `count` slots from `base` on, slot `j` of which
holds `kids j`. -/
structure RowPost (g : Regions) (whole : Buffer) (n d : Nat) (base : Int)
    (count : Nat) (kids : Nat → Int) (s s' : State) : Prop where
  sane : Sane g whole.size s'
  index : s'.blockIndex
    = s.blockIndex + weigh (nodes n d) (n ^ d) count (remaining g s)
  flag : s'.finished = true
    ↔ s.finished = true ∨ remaining g s < count * n ^ d
  remaining : remaining g s' = remaining g s - count * n ^ d
  frame : ∀ x, x < g.blockAt s.blockIndex →
    x < base ∨ base + 4 * count ≤ x → s'.dest.byte x = s.dest.byte x
  above : ∀ x, g.blockAt s'.blockIndex ≤ x → s'.dest.byte x = s.dest.byte x
  read : ∀ u ∈ forest (preorder (rawChild g whole) n d) (n ^ d) kids count
    (Defrag.remaining g s), Readable g whole u
  mirror : MirrorSlots
    (Mirror (Same g whole s'.dest) (rawChild g whole) (child g s'.dest) n d)
    (n ^ d) (full n d) kids (fun j => s'.dest.int (base + INT_SIZE * j))
    s.blockIndex count (Defrag.remaining g s)
  data : s'.dataFile = s.dataFile
    ++ (forest (leaves (rawChild g whole) n d) (n ^ d) kids count
        (Defrag.remaining g s)).flatMap (rawBytes g whole)

/-- A data block. -/
theorem copyData_spec (hB : Bounds g whole.size n) (hs : Sane g whole.size s)
    (hslot : slot + 4 ≤ g.blockAt s.blockIndex) (hleft : 0 < s.thisFileSize)
    (h : copyData g whole slot s = some s') :
    SlotPost g whole n 0 slot (s.dest.int slot) s s' := by
  have hpos := hB.block_pos
  simp only [copyData, Option.bind_eq_bind, Option.bind_eq_some_iff,
    Option.some.injEq] at h
  obtain ⟨ptr, hload, s₁, hcopy, dest, hstore, hs'⟩ := h
  have hptr := (Buffer.loadInt_eq_some hload).2
  have hdest := (Buffer.storeInt_eq_some hstore).2
  have hflag : s.finished ≠ true := fun hf => by
    have := hs.flag hf
    omega
  have hs₀ : Sane g whole.size
      { s with thisFileSize := i32 (s.thisFileSize - g.blockSize) } :=
    ⟨hs.size, hs.index, hs.room, Lib.i32_lt _, fun hf => absurd hf hflag⟩
  obtain ⟨hs₁, hroom, hread⟩ := copyBlock_spec hB hs₀ hcopy
  have hroom : g.blockAt (s.blockIndex + 1) ≤ whole.size := hroom
  have hdata : g.dataBegin ≤ g.blockAt s.blockIndex := by
    have := Int.mul_nonneg hs.index (Int.le_of_lt hpos)
    unfold Regions.blockAt
    omega
  -- the block fits in the file, so subtracting its size does not wrap
  have hsub : i32 (s.thisFileSize - g.blockSize)
      = s.thisFileSize - g.blockSize := by
    have hmax := hs.left
    have hfile := hB.fileSize
    have hinode := hB.inode
    have hrec := hB.records
    have hnum := hB.inodes
    rw [blockAt_succ] at hroom
    unfold INODE_SIZE at hrec
    exact Lib.i32_of_range (by omega) (by omega)
  have hw : Written g whole ptr slot s s' := by
    subst hs' hdest hs₁
    exact written_of_store hB hs hslot hroom rfl rfl (Lib.i32_lt _)
      fun hf => absurd hf hflag
  have hleft' : s'.thisFileSize = s.thisFileSize - g.blockSize := by
    subst hs' hs₁
    exact hsub
  have hflag' : s'.finished = s.finished := by
    subst hs' hs₁
    rfl
  have hbytes : s'.dataFile = s.dataFile ++ rawBytes g whole ptr := by
    subst hs' hs₁
    have hblock := (hB.block_eq hs.index hs.room).1
    dsimp only
    rw [hblock]
    refine congrArg (s.dataFile ++ ·) (Buffer.slice_congr fun i hlo hhi => ?_)
    rw [Buffer.blit_byte_inside (by omega) (by omega)]
    congr 1
    omega
  have hptr : s.dest.int slot = ptr := hptr.symm
  rw [hptr]
  constructor
  case sane => exact hw.sane
  case index => exact hw.index
  case flag =>
    have hne : remaining g s ≠ 0 := fun hr => by
      have := (blocksFor_eq_zero hB).mp hr
      omega
    rw [hflag', Nat.pow_zero]
    exact ⟨fun h => absurd h hflag, fun h => h.resolve_right (by omega)⟩
  case remaining =>
    rw [remaining, hleft', blocksFor_sub hB]
    rfl
  case frame => exact hw.frame
  case above => exact hw.above
  case pointer => exact hw.pointer
  case read =>
    intro u hu
    rw [List.mem_singleton.mp hu]
    exact hread
  case mirror => exact hw.same
  case data =>
    rw [hbytes]
    simp [leaves]

/-- A block nobody writes keeps its slots and its contents. -/
theorem kept_block {fileSize : Int} (hB : Bounds g fileSize n)
    {dest dest' : Buffer} {w : Int}
    (hkeep : ∀ x, g.blockAt w ≤ x → x < g.blockAt (w + 1) →
      dest'.byte x = dest.byte x) :
    (∀ j, j < n → child g dest' w j = child g dest w j)
      ∧ ∀ u, Same g whole dest u w → Same g whole dest' u w := by
  have hints := hB.ints
  rw [blockAt_succ] at hkeep
  constructor
  · intro j hj
    refine Buffer.int_congr fun x hlo hhi => ?_
    unfold INT_SIZE at hlo hhi
    exact hkeep x (by omega) (by omega)
  · intro u hsame x hlo hhi
    rw [hkeep _ (by omega) (by omega)]
    exact hsame x hlo hhi

/-- A row is its first slot and the rest. -/
theorem RowPost.cons (hB : Bounds g whole.size n) {base : Int} {count : Nat}
    {kids : Nat → Int} (hr : Defrag.remaining g s ≠ 0)
    (hbase : base + 4 * (count + 1 : Nat) ≤ g.blockAt s.blockIndex)
    (h₁ : SlotPost g whole n d base (kids 0) s t)
    (h₂ : RowPost g whole n d (base + 4) count (fun j => kids (j + 1)) t s') :
    RowPost g whole n d base (count + 1) kids s s' := by
  have hindex := h₁.index
  have hle : s.blockIndex ≤ t.blockIndex := by omega
  have hmono := hB.blockAt_mono hle
  constructor
  case sane => exact h₂.sane
  case index =>
    rw [weigh, if_neg hr, h₂.index, h₁.index, h₁.remaining]
    push_cast
    ring
  case flag =>
    rw [h₂.flag, h₁.flag, h₁.remaining, or_assoc, Nat.succ_mul]
    exact or_congr_right (by omega)
  case remaining =>
    rw [h₂.remaining, h₁.remaining, Nat.succ_mul]
    omega
  case frame =>
    intro x hx hout
    rw [h₂.frame x (by omega) (by omega), h₁.frame x hx (by omega)]
  case above =>
    intro x hx
    have hup := hB.blockAt_mono (show t.blockIndex ≤ s'.blockIndex by
      rw [h₂.index]
      omega)
    rw [h₂.above x hx, h₁.above x (by omega)]
  case read =>
    rw [forest, if_neg hr]
    intro u hu
    rcases List.mem_append.mp hu with hu | hu
    · exact h₁.read u hu
    · exact h₂.read u (by rwa [h₁.remaining])
  case mirror =>
    -- the rest of the row leaves the first slot and its tree alone
    have hkeep : ∀ x, x < g.blockAt t.blockIndex → x < base + 4 →
        s'.dest.byte x = t.dest.byte x :=
      fun x hx hout => h₂.frame x hx (.inl hout)
    refine .inr ⟨?_, ?_, ?_⟩
    · have hslot : s'.dest.int base = t.dest.int base :=
        Buffer.int_congr fun x hlo hhi => hkeep x (by omega) (by omega)
      simpa using hslot.trans h₁.pointer
    · refine h₁.mirror.congr hB.pos fun w hlo hhi => ?_
      have hw := hB.blockAt_mono hlo
      have hw' := hB.blockAt_mono (show w + 1 ≤ t.blockIndex by omega)
      exact kept_block hB fun x hx hx' =>
        h₂.frame x (by omega) (.inr (by omega))
    · have hkids : (fun j : Nat => s'.dest.int (base + INT_SIZE * (j + 1 : Nat)))
          = fun j : Nat => s'.dest.int (base + 4 + INT_SIZE * j) := by
        funext j
        congr 1
        unfold INT_SIZE
        push_cast
        ring
      rw [hkids]
      have hrest := h₂.mirror
      rw [h₁.remaining] at hrest
      by_cases hfull : n ^ d ≤ Defrag.remaining g s
      · rwa [hindex, Lib.nodes_full hB.pos hfull] at hrest
      · rw [show Defrag.remaining g s - n ^ d = 0 by omega]
        exact .zero count
  case data =>
    rw [forest, if_neg hr, h₂.data, h₁.data, h₁.remaining,
      List.flatMap_append, List.append_assoc]

/-- A row of no slots. -/
theorem RowPost.nil {base : Int} {kids : Nat → Int}
    (hs : Sane g whole.size s) : RowPost g whole n d base 0 kids s s where
  sane := hs
  index := by simp [weigh]
  flag := by simp
  remaining := by simp
  frame _ _ _ := rfl
  above _ _ := rfl
  read := by simp [forest]
  mirror := trivial
  data := by simp [forest]

/-- A row whose file is used up. -/
theorem RowPost.done (hB : Bounds g whole.size n) {base : Int} {count : Nat}
    {kids : Nat → Int} (hs : Sane g whole.size s)
    (hleft : s.thisFileSize ≤ 0) (hcount : s.finished = true ∨ 0 < count) :
    RowPost g whole n d base count kids s { s with finished := true } := by
  have hr : Defrag.remaining g s = 0 := (blocksFor_eq_zero hB).mpr hleft
  constructor
  case sane => exact ⟨hs.size, hs.index, hs.room, hs.left, fun _ => hleft⟩
  case index => rw [hr, Lib.weigh_zero]; simp
  case flag =>
    rw [hr]
    exact ⟨fun _ => hcount.imp_right fun h => Nat.mul_pos h (Nat.pow_pos hB.pos),
      fun _ => rfl⟩
  case remaining =>
    rw [hr, Nat.zero_sub]
    exact hr
  case frame => exact fun _ _ _ => rfl
  case above => exact fun _ _ => rfl
  case read => rw [hr, Lib.forest_zero]; simp
  case mirror =>
    rw [hr]
    exact .zero count
  case data => rw [hr, Lib.forest_zero]; simp

/-- A loop over a row of slots, given what its body does to one. -/
theorem forSlots_row (hB : Bounds g whole.size n) {stop : State → Bool}
    {body : Nat → State → Option State}
    (hstop : ∀ s, Sane g whole.size s →
      (stop s = true ↔ s.thisFileSize ≤ 0)) :
    ∀ {count j : Nat} {base : Int} {kids : Nat → Int} {s s' : State},
      (∀ i, i < count → ∀ t t', Sane g whole.size t → 0 < t.thisFileSize →
        base + 4 * count ≤ g.blockAt t.blockIndex →
        t.dest.int (base + INT_SIZE * i) = kids i →
        body (j + i) t = some t' →
        SlotPost g whole n d (base + INT_SIZE * i) (kids i) t t') →
      Sane g whole.size s → base + 4 * count ≤ g.blockAt s.blockIndex →
      (∀ i, i < count → s.dest.int (base + INT_SIZE * i) = kids i) →
      forSlots stop body j count s = some s' →
      RowPost g whole n d base count kids s s' := by
  intro count
  induction count with
  | zero =>
      intro j base kids s s' _ hs _ _ h
      obtain rfl := Option.some.inj h
      exact .nil hs
  | succ count ih =>
      intro j base kids s s' hbody hs hbase hkids h
      unfold forSlots at h
      split at h
      case isTrue hst =>
        have hleft := (hstop s hs).mp hst
        obtain rfl := Option.some.inj h
        exact .done hB hs hleft (.inr (Nat.succ_pos count))
      case isFalse hst =>
        have hleft : 0 < s.thisFileSize := by
          by_contra hno
          exact hst ((hstop s hs).mpr (by omega))
        split at h
        next => cases h
        next t ht =>
          have h₁ := hbody 0 (Nat.succ_pos count) s t hs hleft hbase
            (hkids 0 (Nat.succ_pos count)) ht
          rw [show base + INT_SIZE * (0 : Nat) = base by simp] at h₁
          have hslot (i : Nat) : base + 4 + INT_SIZE * i
              = base + INT_SIZE * (i + 1 : Nat) := by
            unfold INT_SIZE
            push_cast
            ring
          have hindex := h₁.index
          have hmono := hB.blockAt_mono (show s.blockIndex ≤ t.blockIndex by omega)
          push_cast at hbase
          refine .cons hB ?_ (by push_cast; exact hbase) h₁ (ih ?_ h₁.sane
            (by omega) ?_ h)
          · intro hr
            have := (blocksFor_eq_zero hB).mp hr
            omega
          · intro i hi u u' hu hleft' hbase' hkid hbody'
            rw [hslot] at hkid ⊢
            refine hbody (i + 1) (by omega) u u' hu hleft'
              (by push_cast; omega) hkid ?_
            rw [← hbody']
            congr 1
            omega
          · -- the later slots still hold what they held
            intro i hi
            rw [← hkids (i + 1) (by omega), ← hslot]
            refine Buffer.int_congr fun x hlo hhi => ?_
            unfold INT_SIZE at hlo hhi
            exact h₁.frame x (by omega) (.inr (by omega))

-- ============================================================== the depths

theorem fileDone_iff (s : State) : fileDone s = true ↔ s.thisFileSize ≤ 0 := by
  simp [fileDone]

/-- `finished` adds nothing to `this_file_size <= 0`. -/
theorem fileDoneOrFinished_iff {fileSize : Int} (hs : Sane g fileSize s) :
    fileDoneOrFinished s = true ↔ s.thisFileSize ≤ 0 := by
  have := hs.flag
  simp only [fileDoneOrFinished, Bool.or_eq_true, decide_eq_true_eq]
  tauto

/-- What a loop below an index block does to the row of its slots. -/
def CopiesRow (g : Regions) (whole : Buffer) (n d : Nat)
    (loop : Int → State → Option State) : Prop :=
  ∀ (base : Int) (kids : Nat → Int) (s s' : State), Sane g whole.size s →
    base + 4 * n ≤ g.blockAt s.blockIndex →
    (∀ j, j < n → s.dest.int (base + INT_SIZE * j) = kids j) →
    loop base s = some s' → RowPost g whole n d base n kids s s'

/-- A slot of depth `d + 1`: its index block is copied, then the row in
the copy. -/
theorem slot_of_index (hB : Bounds g whole.size n)
    {next : Int → State → Option State} (hnext : CopiesRow g whole n d next)
    (hs : Sane g whole.size s) (hslot : slot + 4 ≤ g.blockAt s.blockIndex)
    {below : Int} (hcopy : copyIndex g whole ptr slot s = some (below, t))
    (h : next below t = some s') :
    SlotPost g whole n (d + 1) slot ptr s s' := by
  have hints := hB.ints
  obtain ⟨hbelow, hw, hread, hsize, hfin, hdata⟩ :=
    copyIndex_spec hB hs hslot hcopy
  have hr : remaining g t = remaining g s := by
    unfold remaining
    rw [hsize]
  have hnextBlock : g.blockAt t.blockIndex = below + 4 * n := by
    rw [hw.index, blockAt_succ, hbelow, hints]
  have hkids := hw.slots hB
  rw [← hbelow] at hkids
  have hrow := hnext below (rawChild g whole ptr) t s' hw.sane (by omega) hkids h
  constructor
  case sane => exact hrow.sane
  case index =>
    rw [hrow.index, hw.index, hr, nodes]
    push_cast
    ring
  case flag => rw [hrow.flag, hfin, hr, Nat.pow_succ, Nat.mul_comm]
  case remaining => rw [hrow.remaining, hr, Nat.pow_succ, Nat.mul_comm]
  case frame =>
    intro x hx hout
    rw [hrow.frame x (by omega) (.inl (by omega)), hw.frame x hx hout]
  case above =>
    intro x hx
    have hup := hB.blockAt_mono (show t.blockIndex ≤ s'.blockIndex by
      rw [hrow.index]
      omega)
    rw [hrow.above x hx, hw.above x (by omega)]
  case pointer =>
    rw [← hw.pointer]
    exact Buffer.int_congr fun x _ _ =>
      hrow.frame x (by omega) (.inl (by omega))
  case read =>
    rw [preorder]
    intro u hu
    rcases List.mem_cons.mp hu with rfl | hu
    · exact hread
    · exact hrow.read u (by rwa [hr])
  case mirror =>
    have hm := hrow.mirror
    rw [hw.index, hr, hbelow] at hm
    exact hm
  case data =>
    rw [hrow.data, hdata, hr]
    rfl

/-- The loops below an index block, whatever its depth. -/
theorem currBlock_copies (hB : Bounds g whole.size n) :
    ∀ d, CopiesRow g whole n d (currBlock g whole d) := by
  intro d
  induction d with
  | zero =>
      intro base kids s s' hs hbase hkids h
      unfold currBlock currBlockLv1 at h
      rw [hB.numInts] at h
      refine forSlots_row hB (fun s _ => fileDone_iff s) ?_ hs hbase hkids h
      intro i hi t t' ht hleft hroom hkid hbody
      rw [Nat.zero_add] at hbody
      rw [← hkid]
      refine copyData_spec hB ht ?_ hleft hbody
      unfold INT_SIZE
      omega
  | succ d ih =>
      intro base kids s s' hs hbase hkids h
      unfold currBlock currBlockOver at h
      rw [hB.numInts] at h
      refine forSlots_row hB (fun s hs => fileDoneOrFinished_iff hs) ?_ hs hbase
        hkids h
      intro i hi t t' ht _ hroom hkid hbody
      rw [Nat.zero_add] at hbody
      simp only [Option.bind_eq_bind, Option.bind_eq_some_iff,
        Prod.exists] at hbody
      obtain ⟨ptr, hload, below, u, hcopy, hnext⟩ := hbody
      have hptr := (Buffer.loadInt_eq_some hload).2
      rw [← hkid, ← hptr]
      refine slot_of_index hB ih ht ?_ hcopy hnext
      unfold INT_SIZE
      omega

end OperatingSystem.Defrag
