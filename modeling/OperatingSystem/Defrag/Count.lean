/-
How many blocks the inode loop takes, exactly.

# The spare block

A file takes the blocks it needs, with one exception. `finished` is set by
the loop test AFTER the last block, so when the last block fills the last
slot of a group no test runs any more: a file that exactly fills its single
indirect pointers goes on to its double indirect block, one that exactly
fills its double indirect block to its triple indirect one. That index
block is copied before anything is tested; then the first test inside it
ends the file. Nothing happens at the direct blocks, because the loop over
the single indirect pointers tests before it copies.

So a file takes at most one block too many, `spareSlots` names the pointer
it belongs to, and `block_index` is a sum over the live inodes
(`takenBefore`).
-/
import OperatingSystem.Defrag.Files

namespace OperatingSystem.Defrag

open Lib (Buffer Root nodes full weigh nodesRoots)

variable {g : Regions} {whole : Buffer} {s s' s₀ s₁ s₂ s₃ : State}
  {n d : Nat} {base curr : Int}

-- ======================================================= a top index block

/-- An index block with nothing below it. -/
theorem nodes_zero (n d : Nat) : nodes n (d + 1) 0 = 1 := by
  rw [nodes, Lib.weigh_zero]

/-- A top index block is taken when it is needed, and also when the file
has just been used up without a test having noticed. -/
theorem TopPost.index (hB : Bounds g whole.size n) (hs : Sane g whole.size s)
    (h : TopPost g whole n d base s s') :
    s'.blockIndex = s.blockIndex
      + weigh (nodes n (d + 1)) (n ^ (d + 1)) 1 (remaining g s)
      + if s.finished = true ∨ remaining g s ≠ 0 then 0 else 1 := by
  unfold TopPost at h
  split at h
  case isTrue hfin =>
    have hr : Defrag.remaining g s = 0 := (blocksFor_eq_zero hB).mpr (hs.flag hfin)
    rw [if_pos (.inl hfin), hr, Lib.weigh_zero, h]
    simp
  case isFalse hfin =>
    rw [h.index]
    by_cases hr : remaining g s = 0
    · rw [if_neg (by simp [hfin, hr]), hr, nodes_zero, Lib.weigh_zero]
      simp
    · rw [if_pos (.inr hr), weigh, if_neg hr, weigh]
      simp

theorem TopPost.flag (h : TopPost g whole n d base s s') :
    s'.finished = true
      ↔ s.finished = true ∨ remaining g s < n ^ (d + 1) := by
  unfold TopPost at h
  split at h
  case isTrue hfin => rw [h, hfin]; simp
  case isFalse => exact h.flag

theorem TopPost.remaining (hB : Bounds g whole.size n)
    (hs : Sane g whole.size s) (h : TopPost g whole n d base s s') :
    remaining g s' = Defrag.remaining g s - n ^ (d + 1) := by
  rw [(h.root hB hs).remaining]
  simp

theorem TopPost.above (h : TopPost g whole n d base s s') :
    ∀ x, g.blockAt s'.blockIndex ≤ x → s'.dest.byte x = s.dest.byte x := by
  unfold TopPost at h
  split at h
  case isTrue => exact fun x _ => by rw [h]
  case isFalse => exact h.above

/-- The pointer of a top index block that is not skipped. -/
theorem TopPost.pointer (h : TopPost g whole n d base s s')
    (hfin : ¬s.finished = true) : s'.dest.int base = s.blockIndex := by
  unfold TopPost at h
  rw [if_neg hfin] at h
  exact h.pointer

-- =============================================================== one file

/-- The pointers whose index blocks a file of `len` blocks takes without
needing them. -/
def spareSlots (n len : Nat) : List Int :=
  if len = N_DBLOCKS + N_IBLOCKS * n then [i2block]
  else if len = N_DBLOCKS + N_IBLOCKS * n + n ^ 2 then [i3block]
  else []

theorem mem_spareSlots {len : Nat} {o : Int} (h : o ∈ spareSlots n len) :
    (spareSlots n len).length = 1
      ∧ (len = 10 + 4 * n ∧ o = i2block
        ∨ len = 10 + 4 * n + n ^ 2 ∧ o = i3block) := by
  unfold spareSlots at h ⊢
  by_cases h₁ : len = N_DBLOCKS + N_IBLOCKS * n
  · rw [if_pos h₁] at h ⊢
    exact ⟨rfl, .inl ⟨h₁, List.mem_singleton.mp h⟩⟩
  · rw [if_neg h₁] at h ⊢
    by_cases h₂ : len = N_DBLOCKS + N_IBLOCKS * n + n ^ 2
    · rw [if_pos h₂] at h ⊢
      exact ⟨rfl, .inr ⟨h₂, List.mem_singleton.mp h⟩⟩
    · rw [if_neg h₂] at h
      cases h

theorem spareSlots_lv2 {len : Nat} (h : len = 10 + 4 * n) :
    spareSlots n len = [i2block] := if_pos h

theorem spareSlots_lv3 {len : Nat} (hn : 0 < n)
    (h : len = 10 + 4 * n + n ^ 2) : spareSlots n len = [i3block] := by
  have hsq := Nat.pow_pos (n := 2) hn
  unfold spareSlots
  rw [if_neg (by simp only [N_DBLOCKS, N_IBLOCKS]; omega)]
  exact if_pos h

/-- The blocks the four groups of an inode need, group by group. -/
theorem nodesRoots_roots (img : Buffer) (curr : Int) (n len : Nat) :
    nodesRoots n (roots img curr) len
      = weigh (nodes n 0) (n ^ 0) N_DBLOCKS len
        + (weigh (nodes n 1) (n ^ 1) N_IBLOCKS (len - N_DBLOCKS * n ^ 0)
          + (weigh (nodes n 2) (n ^ 2) 1
              (len - N_DBLOCKS * n ^ 0 - N_IBLOCKS * n ^ 1)
            + weigh (nodes n 3) (n ^ 3) 1
              (len - N_DBLOCKS * n ^ 0 - N_IBLOCKS * n ^ 1 - 1 * n ^ 2))) :=
  rfl

/-- What is left after the direct and single indirect pointers, and whether
the code has noticed. -/
theorem LowPhases.flags (h : LowPhases g whole n curr s₀ s₁ s₂) :
    remaining g s₂ = fileLength g whole curr - (10 + 4 * n)
      ∧ (s₂.finished = true ↔ fileLength g whole curr < 10 + 4 * n) := by
  have r₁ := h.direct.remaining
  have r₂ := h.lv1.remaining
  have f₁ := h.direct.flag
  have f₂ := h.lv1.flag
  rw [h.unfinished] at f₁
  rw [h.length] at r₁ f₁
  rw [r₁] at r₂ f₂
  rw [f₁] at f₂
  simp only [N_DBLOCKS, N_IBLOCKS, Nat.pow_zero, Nat.pow_one, Nat.mul_one,
    Bool.false_eq_true, false_or] at r₂ f₂
  refine ⟨by omega, ?_⟩
  rw [f₂]
  omega

/-- The same behind the double indirect pointer. -/
theorem LowPhases.flags_lv2 (hB : Bounds g whole.size n)
    (h : LowPhases g whole n curr s₀ s₁ s₂)
    (h₃ : TopPost g whole n 1 (curr + i2block) s₂ s₃) :
    remaining g s₃ = fileLength g whole curr - (10 + 4 * n + n ^ 2)
      ∧ (s₃.finished = true
        ↔ fileLength g whole curr < 10 + 4 * n + n ^ 2) := by
  obtain ⟨r₂, f₂⟩ := h.flags
  have r₃ := h₃.remaining hB h.lv1.sane
  have f₃ := h₃.flag
  have hsq := Nat.pow_pos (n := 2) hB.pos
  rw [r₂] at r₃ f₃
  rw [f₂] at f₃
  simp only [Nat.reduceAdd] at r₃ f₃
  refine ⟨by omega, ?_⟩
  rw [f₃]
  omega

/-- Each of the two top index blocks is spare for one length only. -/
theorem FilePhases.index (hB : Bounds g whole.size n)
    (h : FilePhases g whole n curr s₀ s₁ s₂ s₃ s') :
    s'.blockIndex = s₀.blockIndex
      + nodesRoots n (Defrag.roots whole curr) (fileLength g whole curr)
      + (spareSlots n (fileLength g whole curr)).length := by
  obtain ⟨r₂, f₂⟩ := h.flags
  obtain ⟨r₃, f₃⟩ := h.flags_lv2 hB h.lv2
  have hsq := Nat.pow_pos (n := 2) hB.pos
  have hs₂ := h.lv1.sane
  have hs₃ := (h.lv2.root hB hs₂).sane
  have i₁ := h.direct.index
  have i₂ := h.lv1.index
  have i₃ := h.lv2.index hB hs₂
  have i₄ := h.lv3.index hB hs₃
  simp only [r₂, f₂] at i₃
  simp only [r₃, f₃] at i₄
  rw [h.direct.remaining, h.length] at i₂
  rw [h.length] at i₁
  rw [nodesRoots_roots]
  unfold spareSlots
  simp only [N_DBLOCKS, N_IBLOCKS, Nat.pow_zero, Nat.pow_one, Nat.mul_one,
    Nat.one_mul, Nat.reduceAdd, Nat.sub_sub, Nat.add_assoc] at *
  rw [i₄, i₃, i₂, i₁]
  generalize fileLength g whole curr = len at *
  split_ifs <;> simp <;> omega

/-- A double indirect block that is spare is the last block the file
takes. -/
theorem FilePhases.spare_lv2 (hB : Bounds g whole.size n)
    (h : FilePhases g whole n curr s₀ s₁ s₂ s₃ s')
    (hopen : ¬s₂.finished = true) (hr : Defrag.remaining g s₂ = 0) :
    spareSlots n (fileLength g whole curr) = [i2block] ∧ s' = s₃
      ∧ s₂.blockIndex = s₀.blockIndex
        + nodesRoots n (Defrag.roots whole curr) (fileLength g whole curr) := by
  obtain ⟨r₂, f₂⟩ := h.flags
  obtain ⟨r₃, f₃⟩ := h.flags_lv2 hB h.lv2
  have hsq := Nat.pow_pos (n := 2) hB.pos
  have hlen := mt f₂.mpr hopen
  have hspare : spareSlots n (fileLength g whole curr) = [i2block] :=
    spareSlots_lv2 (by omega)
  have hindex := h.index hB
  have i₃ := h.lv2.index hB h.lv1.sane
  have hs' : s' = s₃ := by
    have htop := h.lv3
    unfold TopPost at htop
    rwa [if_pos (f₃.mpr (by omega))] at htop
  rw [hspare, List.length_singleton, hs'] at hindex
  rw [if_neg (by simp [hopen, hr]), hr, Lib.weigh_zero] at i₃
  exact ⟨hspare, hs', by omega⟩

/-- So is a triple indirect block that is spare. -/
theorem FilePhases.spare_lv3 (hB : Bounds g whole.size n)
    (h : FilePhases g whole n curr s₀ s₁ s₂ s₃ s')
    (hopen : ¬s₃.finished = true) (hr : Defrag.remaining g s₃ = 0) :
    spareSlots n (fileLength g whole curr) = [i3block]
      ∧ s₃.blockIndex = s₀.blockIndex
        + nodesRoots n (Defrag.roots whole curr) (fileLength g whole curr) := by
  obtain ⟨r₃, f₃⟩ := h.flags_lv2 hB h.lv2
  have hlen := mt f₃.mpr hopen
  have hspare : spareSlots n (fileLength g whole curr) = [i3block] :=
    spareSlots_lv3 hB.pos (by omega)
  have hindex := h.index hB
  have i₄ := h.lv3.index hB (h.lv2.root hB h.lv1.sane).sane
  rw [hspare, List.length_singleton] at hindex
  rw [if_neg (by simp [hopen, hr]), hr, Lib.weigh_zero] at i₄
  exact ⟨hspare, by omega⟩

/-- The pointer of a spare block says so. -/
theorem FilePhases.spare (hB : Bounds g whole.size n)
    (h : FilePhases g whole n curr s₀ s₁ s₂ s₃ s') :
    ∀ o ∈ spareSlots n (fileLength g whole curr),
      s'.dest.int (curr + o) = s₀.blockIndex
        + nodesRoots n (Defrag.roots whole curr) (fileLength g whole curr) := by
  obtain ⟨r₂, f₂⟩ := h.flags
  obtain ⟨r₃, f₃⟩ := h.flags_lv2 hB h.lv2
  have hsq := Nat.pow_pos (n := 2) hB.pos
  intro o ho
  rcases (mem_spareSlots ho).2 with ⟨hlen, rfl⟩ | ⟨hlen, rfl⟩
  · have hopen : ¬s₂.finished = true := mt f₂.mp (by omega)
    obtain ⟨-, hs', hindex⟩ := h.spare_lv2 hB hopen (by omega)
    rw [hs', h.lv2.pointer hopen, hindex]
  · have hopen : ¬s₃.finished = true := mt f₃.mp (by omega)
    obtain ⟨-, hindex⟩ := h.spare_lv3 hB hopen (by omega)
    rw [h.lv3.pointer hopen, hindex]

/-- Blocks from the last `block_index` on are as they were. -/
theorem FilePhases.above (hB : Bounds g whole.size n)
    (h : FilePhases g whole n curr s₀ s₁ s₂ s₃ s') :
    ∀ x, g.blockAt s'.blockIndex ≤ x → s'.dest.byte x = s₀.dest.byte x := by
  have hs₂ := h.lv1.sane
  have i₁ := h.direct.index
  have i₂ := h.lv1.index
  have i₃ := (h.lv2.root hB hs₂).index
  have i₄ := (h.lv3.root hB (h.lv2.root hB hs₂).sane).index
  have m₁ := hB.blockAt_mono (show s₁.blockIndex ≤ s₂.blockIndex by omega)
  have m₂ := hB.blockAt_mono (show s₂.blockIndex ≤ s₃.blockIndex by omega)
  have m₃ := hB.blockAt_mono (show s₃.blockIndex ≤ s'.blockIndex by omega)
  intro x hx
  rw [h.lv3.above x hx, h.lv2.above x (by omega), h.lv1.above x (by omega),
    h.direct.above x (by omega)]

-- =============================================================== the loop

/-- How many blocks the outmost loop takes for inode `i`. -/
def inodeTaken (g : Regions) (whole : Buffer) (n i : Nat) : Nat :=
  if Live whole (g.inode i) then
    fileNodes g whole n i
      + (spareSlots n (fileLength g whole (g.inode i))).length
  else 0

/-- `block_index` when the outmost loop looks at inode `i`. -/
def takenBefore (g : Regions) (whole : Buffer) (n i : Nat) : Nat :=
  ((List.range i).map (inodeTaken g whole n)).sum

theorem takenBefore_succ (g : Regions) (whole : Buffer) (n i : Nat) :
    takenBefore g whole n (i + 1)
      = takenBefore g whole n i + inodeTaken g whole n i := by
  unfold takenBefore
  rw [List.range_succ, List.map_append, List.sum_append, List.map_singleton,
    List.sum_singleton]

/-- The spare block of inode `i` is where its pointer says. -/
def SparePlaced (g : Regions) (whole : Buffer) (n : Nat) (dest : Buffer)
    (i : Nat) : Prop :=
  ∀ o ∈ spareSlots n (fileLength g whole (g.inode i)),
    dest.int (g.inode i + o)
      = takenBefore g whole n i + fileNodes g whole n i

/-- The outmost loop is about to look at inode `i₀`: `Progress` with every
file where the sum says, and nothing written yet where nothing is due. -/
structure Counted (g : Regions) (whole : Buffer) (n i₀ : Nat) (s : State) :
    Prop where
  progress : Progress g whole n i₀ (fun i => takenBefore g whole n i) s
  index : s.blockIndex = takenBefore g whole n i₀
  spare : ∀ i < i₀, Live whole (g.inode i) → SparePlaced g whole n s.dest i
  fresh : ∀ x, g.inode i₀ ≤ x →
    x < g.dataBegin ∨ g.blockAt s.blockIndex ≤ x → s.dest.byte x = 0

/-- One iteration of the outmost loop, counted. -/
theorem copyInode_exact (hB : Bounds g whole.size n)
    (hs : Sane g whole.size s) {i : Nat} (hi : i < g.numInode.toNat)
    (h : copyInode g whole i s = some s') :
    s'.blockIndex = s.blockIndex + inodeTaken g whole n i
      ∧ (Live whole (g.inode i) →
        ∀ o ∈ spareSlots n (fileLength g whole (g.inode i)),
          s'.dest.int (g.inode i + o)
            = s.blockIndex + fileNodes g whole n i)
      ∧ ∀ x, g.inode i + INODE_SIZE ≤ x → g.blockAt s'.blockIndex ≤ x →
        s'.dest.byte x = s.dest.byte x := by
  have hrange := hB.inode_range hi
  have hdata := hB.data_le hs.index
  obtain ⟨t, -, ht, hindex, -, hsame, hout, h⟩ := copyInode_cases hs h
  unfold inodeTaken
  split at h
  case isFalse hidle =>
    rw [if_neg hidle, h, hindex]
    exact ⟨by simp, fun hl => absurd hl hidle, fun x hx _ => hout x (.inr hx)⟩
  case isTrue hlive =>
    obtain ⟨s₀, s₁, s₂, s₃, ⟨hd, hb, -⟩, hp, -⟩ := copyFile_phases hB ht
      (by rw [hindex]; omega) hsame h
    have hsum := hp.index hB
    have hspare := hp.spare hB
    rw [hb, hindex] at hsum hspare
    rw [if_pos hlive]
    refine ⟨?_, fun _ => hspare, fun x hx hab => ?_⟩
    · rw [hsum]
      unfold fileNodes
      omega
    · rw [hp.above hB x hab, hd, hout x (.inr hx)]

theorem Counted.step (hB : Bounds g whole.size n) {i : Nat}
    (hi : i < g.numInode.toNat) (h : Counted g whole n i s)
    (ht : copyInode g whole i s = some s') :
    Counted g whole n (i + 1) s' := by
  have hp := copyInode_spec hB h.progress.sane hi ht
  obtain ⟨hindex, hspare, habove⟩ := copyInode_exact hB h.progress.sane hi ht
  have hrange := hB.inode_range hi
  have hdata := hB.data_le h.progress.sane.index
  have hgrows := hB.blockAt_mono hp.grows
  have hnext : g.inode (i + 1) = g.inode i + INODE_SIZE := by
    unfold Regions.inode
    push_cast
    ring
  constructor
  case progress =>
    have hstep := h.progress.step hB hi hp
    rwa [h.index, Function.update_eq_self] at hstep
  case index => rw [hindex, h.index, takenBefore_succ]; push_cast; rfl
  case spare =>
    intro j hj hlive o ho
    rcases Nat.lt_succ_iff_lt_or_eq.mp hj with hj | rfl
    · rw [← h.spare j hj hlive o ho]
      have hearlier : g.inode j + INODE_SIZE ≤ g.inode i := by
        unfold Regions.inode INODE_SIZE
        omega
      have ho := (mem_spareSlots ho).2
      simp only [i2block, i3block, INODE_SIZE] at ho hearlier hrange
      exact Buffer.int_congr fun x hlo hhi =>
        hp.frame x (by omega) (.inl (by omega))
    · rw [hspare hlive o ho, h.index]
  case fresh =>
    intro x hx hout
    rw [hnext] at hx
    simp only [INODE_SIZE] at hx hrange
    rcases hout with hlt | hge
    · rw [hp.frame x (by omega) (.inr (by simp only [INODE_SIZE]; omega))]
      exact h.fresh x (by omega) (.inl hlt)
    · rw [habove x (by simp only [INODE_SIZE]; omega) hge]
      exact h.fresh x (by omega) (.inr (by omega))

theorem Opening.counted (h : Opening g whole s) : Counted g whole n 0 s where
  progress := h.progress _
  index := h.index
  spare i hi := absurd hi (Nat.not_lt_zero i)
  fresh := by
    intro x hx _
    unfold Regions.inode at hx
    exact h.zero x (by simpa using hx)

/-- The inode loop of a run without a wild access, counted. -/
theorem inodeLoop_counted (hB : Bounds g whole.size n)
    (h : inodeLoop g whole = some s) :
    Counted g whole n g.numInode.toNat s := by
  obtain ⟨s₀, hopen, hrun⟩ := inodeLoop_eq hB
  rw [hrun] at h
  exact inodesFrom_invariant (P := Counted g whole n)
    (fun hi hp ht => hp.step hB hi ht) hopen.counted (Nat.zero_add _) h

end OperatingSystem.Defrag
