/-
The inode loop, file by file: what `main` has done for a live inode when
it goes on to the next one, and what that means for all of them.

A file's four groups of pointers are four `Root`s processed in order. Only
the last two can take a block the file does not need: the code copies the
block named in `i2block` or `i3block` before it looks whether anything is
left. That block is the last one the file takes, so it disturbs neither
its layout nor the next file's (`RootPost.index` is an inequality for this
reason alone).
-/
import OperatingSystem.Defrag.Copy

namespace OperatingSystem.Defrag

open Lib (Buffer Root Mirror MirrorSlots MirrorRoots leaves forest nodes full
  weigh nodesRoots leavesRoots)

variable {g : Regions} {whole : Buffer} {s s' t : State} {n d : Nat}
  {base hi curr : Int} {count : Nat}

-- ============================================================== the roots

/-- A row of slots, by depth, length and place. -/
structure Row where
  depth : Nat
  count : Nat
  base : Int

/-- The roots a list of rows describes in `img`. -/
def rootsAt (img : Buffer) (rows : List Row) : List (Root Int) :=
  rows.map fun row =>
    ⟨row.depth, row.count, fun j => img.int (row.base + INT_SIZE * j)⟩

/-- The rows of the inode at `curr`. -/
def inodeRows (curr : Int) : List Row :=
  [⟨0, N_DBLOCKS, curr + dblocks⟩, ⟨1, N_IBLOCKS, curr + iblocks⟩,
    ⟨2, 1, curr + i2block⟩, ⟨3, 1, curr + i3block⟩]

theorem roots_eq (img : Buffer) (curr : Int) :
    roots img curr = rootsAt img (inodeRows curr) := rfl

/-- Processing a row of an inode: as `RowPost`, but blocks that are not
needed may have been taken when nothing was left. -/
structure RootPost (g : Regions) (whole : Buffer) (n : Nat) (row : Row)
    (s s' : State) : Prop where
  sane : Sane g whole.size s'
  index : s.blockIndex
    + weigh (nodes n row.depth) (n ^ row.depth) row.count (remaining g s)
      ≤ s'.blockIndex
  exact : remaining g s ≠ 0 → s'.blockIndex = s.blockIndex
    + weigh (nodes n row.depth) (n ^ row.depth) row.count (remaining g s)
  remaining : remaining g s' = remaining g s - row.count * n ^ row.depth
  frame : ∀ x, x < g.blockAt s.blockIndex →
    x < row.base ∨ row.base + 4 * row.count ≤ x →
    s'.dest.byte x = s.dest.byte x
  mirror : MirrorSlots
    (Mirror (Same g whole s'.dest) (rawChild g whole) (child g s'.dest) n
      row.depth)
    (n ^ row.depth) (full n row.depth)
    (fun j => whole.int (row.base + INT_SIZE * j))
    (fun j => s'.dest.int (row.base + INT_SIZE * j))
    s.blockIndex row.count (Defrag.remaining g s)
  data : s'.dataFile = s.dataFile
    ++ (forest (leaves (rawChild g whole) n row.depth) (n ^ row.depth)
        (fun j => whole.int (row.base + INT_SIZE * j)) row.count
        (Defrag.remaining g s)).flatMap (rawBytes g whole)

theorem RowPost.root {row : Row}
    (h : RowPost g whole n row.depth row.base row.count
      (fun j => whole.int (row.base + INT_SIZE * j)) s s') :
    RootPost g whole n row s s' :=
  ⟨h.sane, Int.le_of_eq h.index.symm, fun _ => h.index, h.remaining, h.frame,
    h.mirror, h.data⟩

/-- Processing the rows of an inode from `base` up to `hi`. -/
structure RootsPost (g : Regions) (whole : Buffer) (n : Nat)
    (rows : List Row) (base hi : Int) (s s' : State) : Prop where
  sane : Sane g whole.size s'
  index : s.blockIndex + nodesRoots n (rootsAt whole rows) (remaining g s)
    ≤ s'.blockIndex
  frame : ∀ x, x < g.blockAt s.blockIndex → x < base ∨ hi ≤ x →
    s'.dest.byte x = s.dest.byte x
  mirror : MirrorRoots (Same g whole s'.dest) (rawChild g whole)
    (child g s'.dest) n (rootsAt whole rows) (rootsAt s'.dest rows)
    s.blockIndex (Defrag.remaining g s)
  data : s'.dataFile = s.dataFile
    ++ (leavesRoots (rawChild g whole) n (rootsAt whole rows)
        (Defrag.remaining g s)).flatMap (rawBytes g whole)

/-- The blocks below `t.blockIndex` are kept by whatever writes only from
there on. -/
theorem same_slots_of_frame {rows : List Row} {dest dest' : Buffer}
    (h : ∀ row ∈ rows, ∀ x, row.base ≤ x → x < row.base + 4 * row.count →
      dest'.byte x = dest.byte x) :
    Lib.SameSlots (rootsAt dest rows) (rootsAt dest' rows) := by
  induction rows with
  | nil => exact .nil
  | cons row rest ih =>
      refine .cons ⟨rfl, rfl, fun j hj => ?_⟩
        (ih fun row' hrow => h row' (List.mem_cons_of_mem row hrow))
      refine Buffer.int_congr fun x hlo hhi => ?_
      unfold INT_SIZE at hlo hhi
      dsimp only at hj
      exact h row List.mem_cons_self x (by omega) (by omega)

/-- Rows are processed one after the other. -/
theorem RootsPost.cons (hB : Bounds g whole.size n) {row : Row}
    {rows : List Row} {next : Int} (hhi : hi ≤ g.blockAt s.blockIndex)
    (hrow : row.base + 4 * row.count = next) (hnext : next ≤ hi)
    (h₁ : RootPost g whole n row s t)
    (h₂ : RootsPost g whole n rows next hi t s') :
    RootsPost g whole n (row :: rows) row.base hi s s' := by
  subst hrow
  have hindex := h₁.index
  have hmono := hB.blockAt_mono (show s.blockIndex ≤ t.blockIndex by omega)
  have hcap : Root.cap n (⟨row.depth, row.count,
      fun j => whole.int (row.base + INT_SIZE * j)⟩ : Root Int)
      = row.count * n ^ row.depth := rfl
  constructor
  case sane => exact h₂.sane
  case index =>
    have := h₂.index
    rw [h₁.remaining] at this
    change s.blockIndex + ((weigh (nodes n row.depth) (n ^ row.depth) row.count
      (Defrag.remaining g s) + nodesRoots n (rootsAt whole rows)
      (Defrag.remaining g s - row.count * n ^ row.depth) : Nat) : Int) ≤ _
    push_cast
    omega
  case frame =>
    intro x hx hout
    rw [h₂.frame x (by omega) (by omega), h₁.frame x hx (by omega)]
  case mirror =>
    refine ⟨⟨rfl, rfl⟩, ?_, ?_⟩
    · refine MirrorSlots.congr (nodes n row.depth)
        (fun r hr => Lib.nodes_full hB.pos hr) ?_ ?_ h₁.mirror
      · intro u w r' hle hend hm
        refine hm.congr hB.pos fun x hx hx' => ?_
        dsimp only at hend hx'
        have hlo := hB.blockAt_mono (show s.blockIndex ≤ x by omega)
        have hup := hB.blockAt_mono (show x + 1 ≤ t.blockIndex by omega)
        exact kept_block hB fun y hy hy' =>
          h₂.frame y (by omega) (.inr (by omega))
      · intro j hj _
        dsimp only at hj
        refine Buffer.int_congr fun x hlo hup => ?_
        unfold INT_SIZE at hlo hup
        exact h₂.frame x (by omega) (.inl (by omega))
    · have hrest := h₂.mirror
      rw [h₁.remaining] at hrest
      rw [hcap]
      by_cases hr : Defrag.remaining g s - row.count * n ^ row.depth = 0
      · rw [hr] at hrest ⊢
        exact hrest.zero (same_slots_of_frame fun _ _ _ _ _ => rfl)
      · rw [h₁.exact (by omega), Lib.weigh_full
          (fun r hr => Lib.nodes_full hB.pos hr) (Nat.pow_pos hB.pos)
          (by omega)] at hrest
        exact hrest
  case data =>
    rw [h₂.data, h₁.data, h₁.remaining, List.append_assoc,
      ← List.flatMap_append]
    rfl

theorem RootsPost.nil (hs : Sane g whole.size s) (hi : Int) :
    RootsPost g whole n [] hi hi s s where
  sane := hs
  index := by simp [rootsAt, nodesRoots]
  frame _ _ _ := rfl
  mirror := trivial
  data := by simp [rootsAt, leavesRoots]

/-- A row skipped because the file is finished. -/
theorem RowPost.skip {kids : Nat → Int} (hB : Bounds g whole.size n)
    (hs : Sane g whole.size s) (hfin : s.finished = true) :
    RowPost g whole n d base count kids s s := by
  have h : RowPost g whole n d base count kids s { s with finished := true } :=
    .done hB hs (hs.flag hfin) (.inl hfin)
  rwa [← hfin] at h

/-- A root skipped because the file is finished. -/
theorem RootPost.skip {row : Row} (hB : Bounds g whole.size n)
    (hs : Sane g whole.size s) (hfin : s.finished = true) :
    RootPost g whole n row s s :=
  RowPost.root (.skip hB hs hfin)

/-- A row of the one slot of depth `d + 1`, whether or not it is needed. -/
theorem SlotPost.root
    (h : SlotPost g whole n (d + 1) base (whole.int base) s s') :
    RootPost g whole n ⟨d + 1, 1, base⟩ s s' := by
  have hslot (img : Buffer) :
      img.int (base + INT_SIZE * (0 : Nat)) = img.int base := by simp
  have hindex := h.index
  by_cases hr : Defrag.remaining g s = 0
  · constructor
    case sane => exact h.sane
    case index =>
      dsimp only
      rw [hr, Lib.weigh_zero]
      omega
    case exact => exact fun hne => absurd hr hne
    case remaining => rw [h.remaining, hr, Nat.zero_sub, Nat.zero_sub]
    case frame => simpa using h.frame
    case mirror =>
      rw [hr]
      exact .zero 1
    case data =>
      rw [h.data, hr, Lib.forest_zero, leaves, Lib.forest_zero]
  · have hweigh : weigh (nodes n (d + 1)) (n ^ (d + 1)) 1
        (Defrag.remaining g s) = nodes n (d + 1) (Defrag.remaining g s) := by
      rw [weigh, if_neg hr, weigh, Nat.add_zero]
    constructor
    case sane => exact h.sane
    case index => rw [hweigh, hindex]
    case exact => exact fun _ => by rw [hweigh, hindex]
    case remaining => rw [h.remaining, Nat.one_mul]
    case frame => simpa using h.frame
    case mirror =>
      refine .inr ⟨?_, ?_, trivial⟩
      · dsimp only
        rw [hslot, h.pointer]
      · dsimp only
        rw [hslot]
        exact h.mirror
    case data =>
      dsimp only
      rw [h.data, forest, if_neg hr, forest, List.append_nil, hslot]

-- ============================================================= one file

/-- The slots of a row still hold what `whole_buffer` holds. -/
theorem slots_of_sameOn {dest : Buffer} (h : Buffer.SameOn whole dest base
    (4 * count)) : ∀ j, j < count →
    dest.int (base + INT_SIZE * j) = whole.int (base + INT_SIZE * j) := by
  intro j hj
  unfold INT_SIZE
  exact Buffer.int_congr (h.mono (by omega) (by omega))

/-- "First check direct block". -/
theorem directBlocks_row (hB : Bounds g whole.size n)
    (hs : Sane g whole.size s)
    (hroom : curr + dblocks + 4 * N_DBLOCKS ≤ g.blockAt s.blockIndex)
    (hsame : Buffer.SameOn whole s.dest (curr + dblocks) (4 * N_DBLOCKS))
    (h : directBlocks g whole curr s = some s') :
    RowPost g whole n 0 (curr + dblocks) N_DBLOCKS
      (fun j => whole.int (curr + dblocks + INT_SIZE * j)) s s' := by
  refine forSlots_row hB (fun s _ => fileDone_iff s) ?_ hs hroom
    (slots_of_sameOn hsame) h
  intro i hi t t' ht hleft hroom' hkid hbody
  rw [Nat.zero_add] at hbody
  rw [← hkid]
  refine copyData_spec hB ht ?_ hleft hbody
  unfold INT_SIZE
  omega

/-- "Check lv1 indirect block". -/
theorem lv1Blocks_row (hB : Bounds g whole.size n)
    (hs : Sane g whole.size s)
    (hroom : curr + iblocks + 4 * N_IBLOCKS ≤ g.blockAt s.blockIndex)
    (hsame : Buffer.SameOn whole s.dest (curr + iblocks) (4 * N_IBLOCKS))
    (h : lv1Blocks g whole curr s = some s') :
    RowPost g whole n 1 (curr + iblocks) N_IBLOCKS
      (fun j => whole.int (curr + iblocks + INT_SIZE * j)) s s' := by
  unfold lv1Blocks at h
  split at h
  case isTrue hfin =>
    obtain rfl := Option.some.inj h
    exact .skip hB hs hfin
  case isFalse =>
    refine forSlots_row hB (fun s hs => fileDoneOrFinished_iff hs) ?_ hs hroom
      (slots_of_sameOn hsame) h
    intro i hi t t' ht _ hroom' _ hbody
    rw [Nat.zero_add] at hbody
    simp only [Option.bind_eq_bind, Option.bind_eq_some_iff,
      Prod.exists] at hbody
    obtain ⟨ptr, hload, below, u, hcopy, hnext⟩ := hbody
    have hptr := (Buffer.loadInt_eq_some hload).2
    rw [← hptr]
    refine slot_of_index hB (currBlock_copies hB 0) ht ?_ hcopy hnext
    unfold INT_SIZE
    omega

/-- "Check lv2 indirect block" and "Check lv3 indirect block", when they
are not skipped. -/
theorem topBlock_slot (base : Int) (hB : Bounds g whole.size n)
    (hs : Sane g whole.size s) (hfin : ¬s.finished = true)
    (hroom : base + 4 ≤ g.blockAt s.blockIndex)
    (h : topBlock g whole (currBlock g whole d) base s = some s') :
    SlotPost g whole n (d + 1) base (whole.int base) s s' := by
  unfold topBlock at h
  rw [if_neg hfin] at h
  simp only [Option.bind_eq_bind, Option.bind_eq_some_iff, Prod.exists] at h
  obtain ⟨ptr, hload, below, u, hcopy, hnext⟩ := h
  have hptr := (Buffer.loadInt_eq_some hload).2
  rw [hptr] at hcopy
  exact slot_of_index hB (currBlock_copies hB d) hs hroom hcopy hnext

/-- What has become of a top index block: it is skipped when the file is
finished. -/
def TopPost (g : Regions) (whole : Buffer) (n d : Nat) (base : Int)
    (s s' : State) : Prop :=
  if s.finished = true then s' = s
  else SlotPost g whole n (d + 1) base (whole.int base) s s'

theorem topBlock_spec (base : Int) (hB : Bounds g whole.size n)
    (hs : Sane g whole.size s)
    (hroom : base + 4 ≤ g.blockAt s.blockIndex)
    (h : topBlock g whole (currBlock g whole d) base s = some s') :
    TopPost g whole n d base s s' := by
  unfold TopPost
  split
  case isTrue hfin =>
    unfold topBlock at h
    rw [if_pos hfin] at h
    exact (Option.some.inj h).symm
  case isFalse hfin => exact topBlock_slot base hB hs hfin hroom h

theorem TopPost.root (hB : Bounds g whole.size n) (hs : Sane g whole.size s)
    (h : TopPost g whole n d base s s') :
    RootPost g whole n ⟨d + 1, 1, base⟩ s s' := by
  unfold TopPost at h
  split at h
  case isTrue hfin =>
    rw [h]
    exact .skip hB hs hfin
  case isFalse => exact h.root

/-- The direct and single indirect pointers of a live inode, from the
moment its size is known: `s₀` has nothing copied yet. -/
structure LowPhases (g : Regions) (whole : Buffer) (n : Nat) (curr : Int)
    (s₀ s₁ s₂ : State) : Prop where
  sane : Sane g whole.size s₀
  unfinished : s₀.finished = false
  length : remaining g s₀ = fileLength g whole curr
  room : curr + INODE_SIZE ≤ g.blockAt s₀.blockIndex
  direct : RowPost g whole n 0 (curr + dblocks) N_DBLOCKS
    (fun j => whole.int (curr + dblocks + INT_SIZE * j)) s₀ s₁
  lv1 : RowPost g whole n 1 (curr + iblocks) N_IBLOCKS
    (fun j => whole.int (curr + iblocks + INT_SIZE * j)) s₁ s₂

/-- All four groups of pointers of a live inode. -/
structure FilePhases (g : Regions) (whole : Buffer) (n : Nat) (curr : Int)
    (s₀ s₁ s₂ s₃ s' : State) : Prop
    extends LowPhases g whole n curr s₀ s₁ s₂ where
  lv2 : TopPost g whole n 1 (curr + i2block) s₂ s₃
  lv3 : TopPost g whole n 2 (curr + i3block) s₃ s'

/-- The single indirect pointers are still the source's when the direct
blocks have been copied. -/
theorem iblocks_same {kids : Nat → Int}
    (h : RowPost g whole n 0 (curr + dblocks) N_DBLOCKS kids s s')
    (hroom : curr + INODE_SIZE ≤ g.blockAt s.blockIndex)
    (hsame : Buffer.SameOn whole s.dest curr INODE_SIZE) :
    Buffer.SameOn whole s'.dest (curr + iblocks) (4 * N_IBLOCKS) := by
  intro x hlo hhi
  simp only [iblocks, N_IBLOCKS, INODE_SIZE] at hlo hhi hroom
  rw [h.frame x (by omega) (by simp only [dblocks, N_DBLOCKS]; omega)]
  exact hsame x (by omega) (by simp only [INODE_SIZE]; omega)

/-- The copied record has the size of the file. -/
theorem size_same {dest : Buffer}
    (hsame : Buffer.SameOn whole dest curr INODE_SIZE) :
    dest.int (curr + size) = whole.int (curr + size) := by
  refine Buffer.int_congr (hsame.mono ?_ ?_)
  · simp only [size]
    omega
  · simp only [size, INODE_SIZE]
    omega

/-- `copyFile` behind its read of the size. -/
theorem Sane.opened (hs : Sane g whole.size s) {fileSize : Int}
    (h : fileSize = whole.int (curr + Defrag.size)) :
    Sane g whole.size
        { s with finished := false, thisFileSize := fileSize }
      ∧ remaining g { s with finished := false, thisFileSize := fileSize }
        = fileLength g whole curr := by
  subst h
  exact ⟨⟨hs.size, hs.index, hs.room, whole.int_lt _, nofun⟩, rfl⟩

/-- The direct and single indirect pointers, as the record was copied. -/
theorem LowPhases.of_blocks {s₀ s₁ s₂ : State} (hB : Bounds g whole.size n)
    (hs₀ : Sane g whole.size s₀) (hopen : s₀.finished = false)
    (hlength : remaining g s₀ = fileLength g whole curr)
    (hroom : curr + INODE_SIZE ≤ g.blockAt s₀.blockIndex)
    (hsame : Buffer.SameOn whole s₀.dest curr INODE_SIZE)
    (h₁ : directBlocks g whole curr s₀ = some s₁)
    (h₂ : lv1Blocks g whole curr s₁ = some s₂) :
    LowPhases g whole n curr s₀ s₁ s₂ := by
  have hbelow := hroom
  simp only [INODE_SIZE] at hroom
  have p₁ := directBlocks_row hB hs₀
    (by simp only [dblocks, N_DBLOCKS]; omega)
    (hsame.mono (by simp only [dblocks]; omega)
      (by simp only [dblocks, N_DBLOCKS, INODE_SIZE]; omega)) h₁
  have i₁ := hB.blockAt_mono (Int.le_trans (Int.le_add_of_nonneg_right
    (Int.natCast_nonneg _)) (Int.le_of_eq p₁.index.symm))
  have p₂ := lv1Blocks_row hB p₁.sane
    (by simp only [iblocks, N_IBLOCKS]; omega)
    (iblocks_same p₁ hbelow hsame) h₂
  exact ⟨hs₀, hopen, hlength, hbelow, p₁, p₂⟩

/-- The blocks behind them are still above the record. -/
theorem LowPhases.room_low {s₀ s₁ s₂ : State} (hB : Bounds g whole.size n)
    (h : LowPhases g whole n curr s₀ s₁ s₂) :
    curr + INODE_SIZE ≤ g.blockAt s₂.blockIndex := by
  have i₁ := h.direct.index
  have i₂ := h.lv1.index
  have hmono := hB.blockAt_mono
    (show s₀.blockIndex ≤ s₂.blockIndex by omega)
  exact h.room.trans hmono

/-- The blocks of a live inode whose record has just been copied. -/
theorem copyFile_phases (hB : Bounds g whole.size n)
    (hs : Sane g whole.size s)
    (hroom : curr + INODE_SIZE ≤ g.blockAt s.blockIndex)
    (hsame : Buffer.SameOn whole s.dest curr INODE_SIZE)
    (h : copyFile g whole curr s = some s') :
    ∃ s₀ s₁ s₂ s₃, (s₀.dest = s.dest ∧ s₀.blockIndex = s.blockIndex
        ∧ s₀.dataFile = s.dataFile)
      ∧ FilePhases g whole n curr s₀ s₁ s₂ s₃ s'
      ∧ directBlocks g whole curr s₀ = some s₁
      ∧ lv1Blocks g whole curr s₁ = some s₂
      ∧ lv2Block g whole curr s₂ = some s₃
      ∧ lv3Block g whole curr s₃ = some s'
      ∧ ∃ fileSize, s.dest.loadInt (curr + size) = some fileSize
        ∧ s₀ = { s with finished := false, thisFileSize := fileSize } := by
  simp only [copyFile, Option.bind_eq_bind, Option.bind_eq_some_iff] at h
  obtain ⟨fileSize, hload, s₁, h₁, s₂, h₂, s₃, h₃, h₄⟩ := h
  have hsize : fileSize = whole.int (curr + size) :=
    (Buffer.loadInt_eq_some hload).2.trans (size_same hsame)
  obtain ⟨hs₀, hlength⟩ := hs.opened hsize
  refine ⟨{ s with finished := false, thisFileSize := fileSize }, s₁, s₂, s₃,
    ⟨rfl, rfl, rfl⟩, ?_, h₁, h₂, h₃, h₄, fileSize, hload, rfl⟩
  have hlow := LowPhases.of_blocks hB hs₀ rfl hlength hroom hsame h₁ h₂
  have hbelow := hlow.room_low hB
  simp only [INODE_SIZE] at hbelow
  have p₃ := topBlock_spec (curr + i2block) hB hlow.lv1.sane
    (by simp only [i2block]; omega) h₃
  have r₃ := p₃.root hB hlow.lv1.sane
  have i₃ := hB.blockAt_mono (Int.le_trans (Int.le_add_of_nonneg_right
    (Int.natCast_nonneg _)) r₃.index)
  have p₄ := topBlock_spec (curr + i3block) hB r₃.sane
    (by simp only [i3block]; omega) h₄
  exact ⟨hlow, p₃, p₄⟩

/-- What the four groups add up to. -/
theorem FilePhases.roots {s₀ s₁ s₂ s₃ : State} (hB : Bounds g whole.size n)
    (h : FilePhases g whole n curr s₀ s₁ s₂ s₃ s') :
    RootsPost g whole n (inodeRows curr) (curr + dblocks)
      (curr + INODE_SIZE) s₀ s' := by
  have p₁ : RootPost g whole n ⟨0, N_DBLOCKS, curr + dblocks⟩ s₀ s₁ :=
    RowPost.root h.direct
  have p₂ : RootPost g whole n ⟨1, N_IBLOCKS, curr + iblocks⟩ s₁ s₂ :=
    RowPost.root h.lv1
  have p₃ := h.lv2.root hB p₂.sane
  have p₄ := h.lv3.root hB p₃.sane
  have hroom := h.room
  have i₁ := hB.blockAt_mono (Int.le_trans (Int.le_add_of_nonneg_right
    (Int.natCast_nonneg _)) p₁.index)
  have i₂ := hB.blockAt_mono (Int.le_trans (Int.le_add_of_nonneg_right
    (Int.natCast_nonneg _)) p₂.index)
  have i₃ := hB.blockAt_mono (Int.le_trans (Int.le_add_of_nonneg_right
    (Int.natCast_nonneg _)) p₃.index)
  refine .cons hB ?_ ?_ ?_ p₁ (.cons hB ?_ ?_ ?_ p₂
    (.cons hB ?_ ?_ ?_ p₃ (.cons hB ?_ ?_ ?_ p₄ (.nil p₄.sane _))))
  all_goals
    simp only [dblocks, iblocks, i2block, i3block, N_DBLOCKS, N_IBLOCKS,
      INODE_SIZE] at *
    omega

/-- The blocks of a live inode whose record has just been copied. -/
theorem copyFile_spec (hB : Bounds g whole.size n) (hs : Sane g whole.size s)
    (hroom : curr + INODE_SIZE ≤ g.blockAt s.blockIndex)
    (hsame : Buffer.SameOn whole s.dest curr INODE_SIZE)
    (h : copyFile g whole curr s = some s') :
    ∃ s₀, s₀.dest = s.dest ∧ s₀.blockIndex = s.blockIndex
      ∧ s₀.dataFile = s.dataFile
      ∧ remaining g s₀ = fileLength g whole curr
      ∧ RootsPost g whole n (inodeRows curr) (curr + dblocks)
          (curr + INODE_SIZE) s₀ s' := by
  obtain ⟨s₀, s₁, s₂, s₃, ⟨hd, hb, hf⟩, hp, -⟩ :=
    copyFile_phases hB hs hroom hsame h
  exact ⟨s₀, hd, hb, hf, hp.length, hp.roots hB⟩

-- ============================================================= one inode

/-- The blocks the file of inode `i` needs. -/
def fileNodes (g : Regions) (whole : Buffer) (n i : Nat) : Nat :=
  nodesRoots n (roots whole (g.inode i)) (fileLength g whole (g.inode i))

/-- What the file of inode `i` holds, block after block. -/
def fileBytes (g : Regions) (whole : Buffer) (n i : Nat) : List UInt8 :=
  (leavesRoots (rawChild g whole) n (roots whole (g.inode i))
    (fileLength g whole (g.inode i))).flatMap (rawBytes g whole)

/-- The file of inode `i` has been copied to the numbers from `start`
on. -/
structure Placed (g : Regions) (whole : Buffer) (n : Nat) (dest : Buffer)
    (i : Nat) (start : Int) : Prop where
  header : Buffer.SameOn whole dest (g.inode i) dblocks
  mirror : MirrorRoots (Same g whole dest) (rawChild g whole) (child g dest) n
    (roots whole (g.inode i)) (roots dest (g.inode i)) start
    (fileLength g whole (g.inode i))

/-- One iteration of the outmost loop. -/
structure InodePost (g : Regions) (whole : Buffer) (n i : Nat)
    (s s' : State) : Prop where
  sane : Sane g whole.size s'
  grows : s.blockIndex ≤ s'.blockIndex
  frame : ∀ x, x < g.blockAt s.blockIndex →
    x < g.inode i ∨ g.inode i + INODE_SIZE ≤ x →
    s'.dest.byte x = s.dest.byte x
  idle : ¬Live whole (g.inode i) →
    Buffer.SameOn whole s'.dest (g.inode i) INODE_SIZE
      ∧ s'.dataFile = s.dataFile
  live : Live whole (g.inode i) →
    Placed g whole n s'.dest i s.blockIndex
      ∧ s.blockIndex + fileNodes g whole n i ≤ s'.blockIndex
      ∧ s'.dataFile = s.dataFile ++ fileBytes g whole n i

theorem Bounds.inode_range (hB : Bounds g whole.size n) {i : Nat}
    (hi : i < g.numInode.toNat) :
    g.inodeBegin ≤ g.inode i ∧ g.inode i + INODE_SIZE ≤ g.dataBegin := by
  have hrec := hB.records
  unfold Regions.inode
  unfold INODE_SIZE at hrec ⊢
  omega

theorem Bounds.data_le (hB : Bounds g whole.size n) {b : Int} (hb : 0 ≤ b) :
    g.dataBegin ≤ g.blockAt b := by
  have := Int.mul_nonneg hb (Int.le_of_lt hB.block_pos)
  unfold Regions.blockAt
  omega

/-- The record is copied; a live inode's blocks follow. -/
theorem copyInode_cases (hs : Sane g whole.size s) {i : Nat}
    (h : copyInode g whole i s = some s') :
    ∃ t, (s.dest.memcpy (g.inode i) whole (g.inode i) INODE_SIZE = some t.dest
        ∧ t = { s with dest := t.dest, thisFileSize := 0 })
      ∧ Sane g whole.size t ∧ t.blockIndex = s.blockIndex
      ∧ t.dataFile = s.dataFile
      ∧ Buffer.SameOn whole t.dest (g.inode i) INODE_SIZE
      ∧ (∀ x, x < g.inode i ∨ g.inode i + INODE_SIZE ≤ x →
        t.dest.byte x = s.dest.byte x)
      ∧ if Live whole (g.inode i) then copyFile g whole (g.inode i) t = some s'
        else s' = t := by
  simp only [copyInode, Option.bind_eq_bind, Option.bind_eq_some_iff] at h
  obtain ⟨dest, hcopy, links, hload, h⟩ := h
  obtain ⟨-, -, hdest⟩ := Buffer.memcpy_eq_some hcopy
  have hlinks := (Buffer.loadInt_eq_some hload).2
  -- the record as it stands in `dest_buffer` now
  have hsame : Buffer.SameOn whole dest (g.inode i) INODE_SIZE := by
    intro x hlo hhi
    rw [hdest, Buffer.blit_byte_inside hlo hhi]
    congr 1
    omega
  have hlive : Live whole (g.inode i) ↔ links ≠ 0 := by
    unfold Live
    rw [hlinks, Buffer.int_congr (hsame.mono (c := g.inode i + nlink) (m := 4)
      (by simp only [nlink]; omega)
      (by simp only [nlink, INODE_SIZE]; omega))]
  refine ⟨{ s with dest := dest, thisFileSize := 0 }, ⟨hcopy, rfl⟩,
    ⟨by rw [hdest]; exact hs.size, hs.index, hs.room,
      show (0 : Int) < 2147483648 by decide, fun _ => Int.le_refl 0⟩,
    rfl, rfl, hsame,
    fun x hx => by dsimp only; rw [hdest, Buffer.blit_byte_outside hx], ?_⟩
  by_cases hz : links = 0
  · rw [if_neg (fun hl => hlive.mp hl hz)]
    rw [if_pos hz] at h
    exact (Option.some.inj h).symm
  · rw [if_pos (hlive.mpr hz)]
    rwa [if_neg hz] at h

theorem copyInode_spec (hB : Bounds g whole.size n)
    (hs : Sane g whole.size s) {i : Nat} (hi : i < g.numInode.toNat)
    (h : copyInode g whole i s = some s') : InodePost g whole n i s s' := by
  have hrange := hB.inode_range hi
  have hdata := hB.data_le hs.index
  obtain ⟨t, -, ht, hindex, hfile, hsame, hout, h⟩ := copyInode_cases hs h
  split at h
  case isFalse hidle =>
    rw [h]
    exact ⟨ht, Int.le_of_eq hindex.symm, fun x _ hx => hout x hx,
      fun _ => ⟨hsame, hfile⟩, fun hl => absurd hl hidle⟩
  case isTrue hlive =>
    have hbelow : g.inode i + INODE_SIZE ≤ g.blockAt t.blockIndex := by
      rw [hindex]
      omega
    obtain ⟨s₀, hd, hb, hf, hr, hpost⟩ := copyFile_spec hB ht hbelow hsame h
    have hgrows := hpost.index
    have hfirst : g.inode i + dblocks ≤ g.inode i + INODE_SIZE := by
      simp only [dblocks, INODE_SIZE]
      omega
    rw [hr, hb, hindex] at hgrows
    constructor
    case sane => exact hpost.sane
    case grows => omega
    case frame =>
      intro x hx hxo
      rw [hpost.frame x (by rw [hb, hindex]; exact hx)
        (by simp only [dblocks]; omega), hd]
      exact hout x hxo
    case idle => exact fun hno => absurd hlive hno
    case live =>
      refine fun _ => ⟨⟨?_, ?_⟩, hgrows, ?_⟩
      · intro x hlo hhi
        rw [hpost.frame x (by rw [hb, hindex]; omega) (.inl hhi), hd]
        exact hsame x hlo (by omega)
      · have hm := hpost.mirror
        rw [hr, hb, hindex] at hm
        exact hm
      · rw [hpost.data, hf, hr, hfile]
        rfl

-- ============================================================== the loop

/-- The outmost loop is about to look at inode `i₀`. -/
structure Progress (g : Regions) (whole : Buffer) (n i₀ : Nat)
    (start : Nat → Int) (s : State) : Prop where
  sane : Sane g whole.size s
  before : Buffer.SameOn whole s.dest 0 g.inodeBegin
  idle : ∀ i < i₀, ¬Live whole (g.inode i) →
    Buffer.SameOn whole s.dest (g.inode i) INODE_SIZE
  placed : ∀ i < i₀, Live whole (g.inode i) →
    0 ≤ start i ∧ Placed g whole n s.dest i (start i)
      ∧ start i + fileNodes g whole n i ≤ s.blockIndex
  ordered : ∀ i j, i < j → j < i₀ → Live whole (g.inode i) →
    Live whole (g.inode j) → start i + fileNodes g whole n i ≤ start j
  data : s.dataFile = ((List.range i₀).filter fun i =>
    Live whole (g.inode i)).flatMap (fileBytes g whole n)

/-- A file that has been placed stays so while later inodes are copied. -/
theorem Placed.later (hB : Bounds g whole.size n) {dest dest' : Buffer}
    {i : Nat} {start b : Int} (h : Placed g whole n dest i start)
    (hi : i < g.numInode.toNat) (hlo : 0 ≤ start)
    (hhi : start + fileNodes g whole n i ≤ b)
    (hkeep : ∀ x, x < g.blockAt b →
      g.inode i ≤ x ∧ x < g.inode i + INODE_SIZE ∨ g.dataBegin ≤ x →
      dest'.byte x = dest.byte x) : Placed g whole n dest' i start := by
  have hrange := hB.inode_range hi
  have hb := hB.data_le (show 0 ≤ b by omega)
  have hslots : dblocks ≤ INODE_SIZE := by decide
  refine ⟨fun x hx hx' => ?_, h.mirror.congr hB.pos ?_ fun w hw hw' => ?_⟩
  · rw [hkeep x (by omega) (.inl ⟨hx, by omega⟩)]
    exact h.header x hx hx'
  · rw [roots_eq, roots_eq]
    refine same_slots_of_frame fun row hrow x hx hx' => hkeep x ?_ ?_
    all_goals
      simp only [inodeRows, List.mem_cons, List.not_mem_nil, or_false] at hrow
      rcases hrow with rfl | rfl | rfl | rfl <;>
        simp only [dblocks, iblocks, i2block, i3block, N_DBLOCKS, N_IBLOCKS,
          INODE_SIZE] at * <;> omega
  · have hlow := hB.blockAt_mono (show 0 ≤ w by omega)
    have hdata := hB.data_le (Int.le_refl 0)
    have hup := hB.blockAt_mono (show w + 1 ≤ b by
      unfold fileNodes at hhi
      omega)
    exact kept_block hB fun x hx hx' => hkeep x (by omega) (.inr (by omega))

/-- One more inode. -/
theorem Progress.step (hB : Bounds g whole.size n) {i : Nat}
    {start : Nat → Int} (h : Progress g whole n i start s)
    (hi : i < g.numInode.toNat) (hp : InodePost g whole n i s s') :
    Progress g whole n (i + 1) (Function.update start i s.blockIndex) s' := by
  have hrange := hB.inode_range hi
  have hdata := hB.data_le h.sane.index
  have hgrows := hp.grows
  have h100 : INODE_SIZE = 100 := rfl
  -- everything outside record `i` and below `block_index` is kept
  have hearlier {j : Nat} (hj : j < i) :
      g.inode j + INODE_SIZE ≤ g.inode i := by
    unfold Regions.inode INODE_SIZE
    omega
  constructor
  case sane => exact hp.sane
  case before =>
    intro x hlo hhi
    rw [hp.frame x (by omega) (.inl (by omega))]
    exact h.before x hlo hhi
  case idle =>
    intro j hj hidle
    rcases Nat.lt_succ_iff_lt_or_eq.mp hj with hj | rfl
    · intro x hlo hhi
      have := hearlier hj
      rw [hp.frame x (by omega) (.inl (by omega))]
      exact h.idle j hj hidle x hlo hhi
    · exact (hp.idle hidle).1
  case placed =>
    intro j hj hlive
    rcases Nat.lt_succ_iff_lt_or_eq.mp hj with hj | rfl
    · obtain ⟨hlo, hplaced, hle⟩ := h.placed j hj hlive
      have := hearlier hj
      rw [Function.update_of_ne (Nat.ne_of_lt hj)]
      refine ⟨hlo, hplaced.later hB (by omega) hlo hle fun x hx hout => ?_,
        by omega⟩
      exact hp.frame x hx (by omega)
    · obtain ⟨hplaced, hle, -⟩ := hp.live hlive
      rw [Function.update_self]
      exact ⟨h.sane.index, hplaced, hle⟩
  case ordered =>
    intro j k hjk hk hj' hk'
    rw [Function.update_of_ne (by omega : j ≠ i)]
    rcases Nat.lt_succ_iff_lt_or_eq.mp hk with hk | rfl
    · rw [Function.update_of_ne (by omega)]
      exact h.ordered j k hjk hk hj' hk'
    · rw [Function.update_self]
      exact (h.placed j hjk hj').2.2
  case data =>
    rw [List.range_succ, List.filter_append, List.flatMap_append, ← h.data]
    by_cases hlive : Live whole (g.inode i)
    · rw [(hp.live hlive).2.2]
      simp [hlive]
    · rw [(hp.idle hlive).2]
      simp [hlive]

/-- What every iteration of the outmost loop preserves holds at its end. -/
theorem inodesFrom_invariant {P : Nat → State → Prop}
    (hstep : ∀ {i s s'}, i < g.numInode.toNat → P i s →
      copyInode g whole i s = some s' → P (i + 1) s') :
    ∀ {count i : Nat} {s s' : State}, P i s → i + count = g.numInode.toNat →
      inodesFrom g whole i count s = some s' → P g.numInode.toNat s' := by
  intro count
  induction count with
  | zero =>
      intro i s s' h hi hrun
      obtain rfl := Option.some.inj hrun
      rw [Nat.add_zero] at hi
      exact hi ▸ h
  | succ count ih =>
      intro i s s' h hi hrun
      unfold inodesFrom at hrun
      split at hrun
      next => cases hrun
      next t ht => exact ih (hstep (by omega) h ht) (by omega) hrun

/-- The state the outmost loop starts in: everything before the inode region
is copied, the rest is zeros. -/
structure Opening (g : Regions) (whole : Buffer) (s : State) : Prop where
  sane : Sane g whole.size s
  index : s.blockIndex = 0
  data : s.dataFile = []
  before : Buffer.SameOn whole s.dest 0 g.inodeBegin
  zero : ∀ x, g.inodeBegin ≤ x → s.dest.byte x = 0

/-- The copy that precedes the outmost loop always succeeds. -/
theorem Bounds.opening (hB : Bounds g whole.size n) :
    ∃ dest, (Buffer.zero whole.size).memcpy 0 whole 0 g.inodeBegin = some dest
      ∧ Opening g whole {
        dest, blockIndex := 0, thisFileSize := 0, finished := false
        dataFile := [] } := by
  have hdata := hB.data
  have hinode := hB.inode
  have hrec := hB.records
  have hnum := hB.inodes
  unfold INODE_SIZE at hrec
  have hin : whole.Within 0 g.inodeBegin := ⟨by omega, by omega, by omega⟩
  have hzero : g.blockAt 0 = g.dataBegin := by simp [Regions.blockAt]
  refine ⟨_, Buffer.memcpy_of_within (by exact hin) hin, ?_, rfl, rfl, ?_, ?_⟩
  · exact ⟨rfl, Int.le_refl 0, hzero ▸ hB.data,
      show (0 : Int) < 2147483648 by decide, nofun⟩
  · intro x hlo hhi
    dsimp only
    rw [Buffer.blit_byte_inside hlo hhi]
    congr 1
    omega
  · intro x hx
    dsimp only
    rw [Buffer.blit_byte_outside (.inr (by omega))]
    rfl

theorem inodeLoop_eq (hB : Bounds g whole.size n) :
    ∃ s₀, Opening g whole s₀
      ∧ inodeLoop g whole = inodesFrom g whole 0 g.numInode.toNat s₀ := by
  obtain ⟨dest, hcopy, hopen⟩ := hB.opening
  refine ⟨_, hopen, ?_⟩
  unfold inodeLoop
  rw [hcopy]
  rfl

/-- Nothing has been done yet. -/
theorem Opening.progress (h : Opening g whole s) (start : Nat → Int) :
    Progress g whole n 0 start s where
  sane := h.sane
  before := h.before
  idle i hi := absurd hi (Nat.not_lt_zero i)
  placed i hi := absurd hi (Nat.not_lt_zero i)
  ordered _ j _ hj := absurd hj (Nat.not_lt_zero j)
  data := h.data

/-- What the inode loop of a run without a wild access leaves behind. -/
theorem inodeLoop_spec (hB : Bounds g whole.size n)
    (h : inodeLoop g whole = some s) :
    ∃ start, Progress g whole n g.numInode.toNat start s := by
  obtain ⟨s₀, hopen, hrun⟩ := inodeLoop_eq hB
  rw [hrun] at h
  refine inodesFrom_invariant (P := fun i t => ∃ start,
    Progress g whole n i start t) ?_ ⟨fun _ => 0, hopen.progress _⟩
    (Nat.zero_add _) h
  intro i t t' hi ⟨start, hp⟩ ht
  exact ⟨_, hp.step hB hi (copyInode_spec hB hp.sane hi ht)⟩

end OperatingSystem.Defrag
