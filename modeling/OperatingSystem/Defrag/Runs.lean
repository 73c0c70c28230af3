/-
When the inode loop makes no wild access.

`Copy` and `Files` say what a run has done once it has come through; here
is when it does. A block that is copied must lie inside the source
(`Readable`), and the blocks taken so far must lie inside the destination.
Both are needed for the blocks of the files and, besides, for the spare
block of a file that exactly fills a level: its number is whatever the
inode holds in a field the file does not use.

The proofs run parallel to those of `Copy`, slot by slot and depth by
depth, and take what the steps before have done from there.
-/
import OperatingSystem.Defrag.Count

namespace OperatingSystem.Defrag

open Lib (Buffer Root i32 nodes weigh preorder forest nodesRoots preorderRoots)

variable {g : Regions} {whole : Buffer} {s s' t : State} {n d : Nat}
  {slot ptr base curr : Int}

-- ============================================================== one block

/-- There is room for a block in the destination. -/
theorem Sane.within (hB : Bounds g whole.size n) (hs : Sane g whole.size s)
    (hroom : g.blockAt (s.blockIndex + 1) ≤ whole.size) :
    0 ≤ g.blockAt s.blockIndex
      ∧ s.dest.Within (g.block s.blockIndex) g.blockSize := by
  have hpos := hB.block_pos
  have hdata := hB.data_le hs.index
  have hinode := hB.inode
  have hrec := hB.records
  have hnum := hB.inodes
  have hsize := hs.size
  rw [blockAt_succ] at hroom
  unfold INODE_SIZE at hrec
  refine ⟨by omega, ?_⟩
  rw [(hB.block_eq hs.index hs.room).1]
  exact ⟨by omega, by omega, by omega⟩

theorem copyBlock_runs (hB : Bounds g whole.size n)
    (hs : Sane g whole.size s) (hread : Readable g whole ptr)
    (hroom : g.blockAt (s.blockIndex + 1) ≤ whole.size) :
    copyBlock g whole ptr s = some { s with
      dest := s.dest.blit (g.block s.blockIndex) whole (g.block ptr)
        g.blockSize } := by
  unfold copyBlock
  rw [Buffer.memcpy_of_within (hs.within hB hroom).2 hread]
  rfl

/-- A slot before `block_index` is in the buffer. -/
theorem Sane.slot_within (hs : Sane g whole.size s) (hlo : 0 ≤ slot)
    (hslot : slot + 4 ≤ g.blockAt s.blockIndex) :
    s.dest.Within slot 4 := by
  have hroom := hs.room
  have hsize := hs.size
  exact ⟨hlo, by omega, by omega⟩

theorem copyData_runs (slot : Int) (hB : Bounds g whole.size n)
    (hs : Sane g whole.size s) (hlo : 0 ≤ slot)
    (hslot : slot + 4 ≤ g.blockAt s.blockIndex)
    (hread : Readable g whole (s.dest.int slot))
    (hroom : g.blockAt (s.blockIndex + 1) ≤ whole.size)
    (hleft : 0 < s.thisFileSize) :
    ∃ s', copyData g whole slot s = some s' := by
  have hin := hs.slot_within hlo hslot
  have hs₀ : Sane g whole.size
      { s with thisFileSize := i32 (s.thisFileSize - g.blockSize) } := by
    refine ⟨hs.size, hs.index, hs.room, Lib.i32_lt _, fun hf => ?_⟩
    have := hs.flag hf
    omega
  unfold copyData
  simp only [Option.bind_eq_bind]
  rw [Buffer.loadInt_of_within hin, Option.bind_some,
    copyBlock_runs hB hs₀ hread hroom, Option.bind_some,
    Buffer.storeInt_of_within (by exact hin), Option.bind_some]
  exact ⟨_, rfl⟩

theorem copyIndex_runs (hB : Bounds g whole.size n)
    (hs : Sane g whole.size s) (hlo : 0 ≤ slot)
    (hslot : slot + 4 ≤ g.blockAt s.blockIndex) (hread : Readable g whole ptr)
    (hroom : g.blockAt (s.blockIndex + 1) ≤ whole.size) :
    ∃ below s', copyIndex g whole ptr slot s = some (below, s') := by
  have hin := hs.slot_within hlo hslot
  unfold copyIndex
  simp only [Option.bind_eq_bind]
  rw [copyBlock_runs hB hs hread hroom, Option.bind_some,
    Buffer.storeInt_of_within (by exact hin), Option.bind_some]
  exact ⟨_, _, rfl⟩

-- ================================================================ the rows

/-- A loop over a row of slots comes through when its body does. -/
theorem forSlots_runs (hB : Bounds g whole.size n) {stop : State → Bool}
    {body : Nat → State → Option State}
    (hstop : ∀ s, Sane g whole.size s →
      (stop s = true ↔ s.thisFileSize ≤ 0)) :
    ∀ {count j : Nat} {base : Int} {kids : Nat → Int} {s : State},
      (∀ i, i < count → ∀ t, Sane g whole.size t → 0 < t.thisFileSize →
        base + 4 * count ≤ g.blockAt t.blockIndex →
        t.dest.int (base + INT_SIZE * i) = kids i →
        (∀ u ∈ preorder (rawChild g whole) n d (kids i) (remaining g t),
          Readable g whole u) →
        g.blockAt (t.blockIndex + nodes n d (remaining g t)) ≤ whole.size →
        ∃ t', body (j + i) t = some t'
          ∧ SlotPost g whole n d (base + INT_SIZE * i) (kids i) t t') →
      Sane g whole.size s → base + 4 * count ≤ g.blockAt s.blockIndex →
      (∀ i, i < count → s.dest.int (base + INT_SIZE * i) = kids i) →
      (∀ u ∈ forest (preorder (rawChild g whole) n d) (n ^ d) kids count
        (remaining g s), Readable g whole u) →
      g.blockAt (s.blockIndex
        + weigh (nodes n d) (n ^ d) count (remaining g s)) ≤ whole.size →
      ∃ s', forSlots stop body j count s = some s' := by
  intro count
  induction count with
  | zero => intros; exact ⟨_, rfl⟩
  | succ count ih =>
      intro j base kids s hbody hs hbase hkids hread hroom
      unfold forSlots
      by_cases hst : stop s = true
      · rw [if_pos hst]
        exact ⟨_, rfl⟩
      rw [if_neg hst]
      have hleft : 0 < s.thisFileSize := by
        by_contra hno
        exact hst ((hstop s hs).mpr (by omega))
      have hr : remaining g s ≠ 0 := fun hr => by
        have := (blocksFor_eq_zero hB).mp hr
        omega
      rw [forest, if_neg hr] at hread
      rw [weigh, if_neg hr] at hroom
      have hfirst := hB.blockAt_mono (show s.blockIndex
          + nodes n d (remaining g s) ≤ s.blockIndex
            + (nodes n d (remaining g s)
              + weigh (nodes n d) (n ^ d) count (remaining g s - n ^ d) : Nat)
        by push_cast; omega)
      obtain ⟨t, ht, h₁⟩ := hbody 0 (Nat.succ_pos count) s hs hleft hbase
        (hkids 0 (Nat.succ_pos count))
        (fun u hu => hread u (List.mem_append_left _ hu)) (by omega)
      rw [Nat.add_zero] at ht
      rw [ht]
      have hindex := h₁.index
      have hmono := hB.blockAt_mono (show s.blockIndex ≤ t.blockIndex by omega)
      have hslot (i : Nat) : base + 4 + INT_SIZE * i
          = base + INT_SIZE * (i + 1 : Nat) := by
        unfold INT_SIZE
        push_cast
        ring
      push_cast at hbase
      -- the later slots still hold what they held
      have hlater : ∀ i, i < count →
          t.dest.int (base + 4 + INT_SIZE * i) = kids (i + 1) := by
        intro i hi
        rw [← hkids (i + 1) (by omega), ← hslot]
        refine Buffer.int_congr fun x hlo hhi => ?_
        unfold INT_SIZE at hlo hhi
        exact h₁.frame x (by omega)
          (.inr (by simp only [INT_SIZE, Int.natCast_zero]; omega))
      refine ih ?_ h₁.sane (by omega) hlater ?_ ?_
      · intro i hi u hu hleft' hbase' hkid hread' hroom'
        rw [hslot] at hkid ⊢
        rw [show j + 1 + i = j + (i + 1) by omega]
        exact hbody (i + 1) (by omega) u hu hleft' (by push_cast; omega) hkid
          hread' hroom'
      · rw [h₁.remaining]
        exact fun u hu => hread u (List.mem_append_right _ hu)
      · rw [h₁.remaining, hindex]
        push_cast at hroom
        rwa [Int.add_assoc]

/-- When a loop below an index block comes through. -/
def RunsRow (g : Regions) (whole : Buffer) (n d : Nat)
    (loop : Int → State → Option State) : Prop :=
  ∀ (base : Int) (kids : Nat → Int) (s : State), Sane g whole.size s →
    0 ≤ base → base + 4 * n ≤ g.blockAt s.blockIndex →
    (∀ j, j < n → s.dest.int (base + INT_SIZE * j) = kids j) →
    (∀ u ∈ forest (preorder (rawChild g whole) n d) (n ^ d) kids n
      (remaining g s), Readable g whole u) →
    g.blockAt (s.blockIndex
      + weigh (nodes n d) (n ^ d) n (remaining g s)) ≤ whole.size →
    ∃ s', loop base s = some s'

/-- An index block and the loop below it. -/
theorem slot_runs (hB : Bounds g whole.size n)
    {next : Int → State → Option State} (hnext : RunsRow g whole n d next)
    (hs : Sane g whole.size s) (hlo : 0 ≤ slot)
    (hslot : slot + 4 ≤ g.blockAt s.blockIndex)
    (hread : ∀ u ∈ preorder (rawChild g whole) n (d + 1) ptr (remaining g s),
      Readable g whole u)
    (hroom : g.blockAt (s.blockIndex + nodes n (d + 1) (remaining g s))
      ≤ whole.size) :
    ∃ below t s', copyIndex g whole ptr slot s = some (below, t)
      ∧ next below t = some s' := by
  have hints := hB.ints
  rw [preorder] at hread
  rw [nodes] at hroom
  push_cast at hroom
  have hone := hB.blockAt_mono (show s.blockIndex + 1 ≤ s.blockIndex
    + (1 + weigh (nodes n d) (n ^ d) n (remaining g s) : Int) by omega)
  have hnonneg := (hs.within hB (by omega)).1
  obtain ⟨below, t, hcopy⟩ := copyIndex_runs hB hs hlo hslot
    (hread ptr List.mem_cons_self) (by omega)
  obtain ⟨hbelow, hw, -, hsize, -, -⟩ := copyIndex_spec hB hs hslot hcopy
  have hr : remaining g t = remaining g s := by
    unfold remaining
    rw [hsize]
  have hkids := hw.slots hB
  rw [← hbelow] at hkids
  obtain ⟨s', hrun⟩ := hnext below (rawChild g whole ptr) t hw.sane (by omega)
    (by rw [hw.index, blockAt_succ, hbelow, hints]) hkids
    (by rw [hr]; exact fun u hu => hread u (List.mem_cons_of_mem _ hu))
    (by rw [hr, hw.index, Int.add_assoc]; exact hroom)
  exact ⟨below, t, s', hcopy, hrun⟩

theorem currBlock_runs (hB : Bounds g whole.size n) :
    ∀ d, RunsRow g whole n d (currBlock g whole d) := by
  intro d
  induction d with
  | zero =>
      intro base kids s hs hlo hbase hkids hread hroom
      unfold currBlock currBlockLv1
      rw [hB.numInts]
      refine forSlots_runs hB (fun s _ => fileDone_iff s) ?_ hs hbase hkids
        hread hroom
      intro i hi t ht hleft hbase' hkid hread' hroom'
      rw [Nat.zero_add, ← hkid]
      have hslot : base + INT_SIZE * i + 4 ≤ g.blockAt t.blockIndex := by
        unfold INT_SIZE
        omega
      obtain ⟨t', hrun⟩ := copyData_runs (base + INT_SIZE * i) hB ht
        (by unfold INT_SIZE; omega) hslot
        (by rw [hkid]; exact hread' _ List.mem_cons_self) hroom' hleft
      exact ⟨t', hrun, copyData_spec hB ht hslot hleft hrun⟩
  | succ d ih =>
      intro base kids s hs hlo hbase hkids hread hroom
      unfold currBlock currBlockOver
      rw [hB.numInts]
      refine forSlots_runs hB (fun s hs => fileDoneOrFinished_iff hs) ?_ hs
        hbase hkids hread hroom
      intro i hi t ht _ hbase' hkid hread' hroom'
      have hslot : base + INT_SIZE * i + 4 ≤ g.blockAt t.blockIndex := by
        unfold INT_SIZE
        omega
      have hslot' : 0 ≤ base + INT_SIZE * i := by
        unfold INT_SIZE
        omega
      obtain ⟨below, u, t', hcopy, hnext⟩ := slot_runs hB ih ht hslot' hslot
        hread' hroom'
      refine ⟨t', ?_, slot_of_index hB (currBlock_copies hB d) ht hslot hcopy
        hnext⟩
      simp only [Nat.zero_add, Option.bind_eq_bind]
      rw [Buffer.loadInt_of_within (ht.slot_within hslot' hslot), hkid,
        Option.bind_some, hcopy, Option.bind_some]
      exact hnext

-- =============================================================== one file

/-- The needed blocks of the row of an inode. -/
def rowBlocks (g : Regions) (whole : Buffer) (n d : Nat) (base : Int)
    (count r : Nat) : List Int :=
  forest (preorder (rawChild g whole) n d) (n ^ d)
    (fun j => whole.int (base + INT_SIZE * j)) count r

theorem directBlocks_runs (hB : Bounds g whole.size n)
    (hs : Sane g whole.size s) (hlo : 0 ≤ curr)
    (hroom : curr + dblocks + 4 * N_DBLOCKS ≤ g.blockAt s.blockIndex)
    (hsame : Buffer.SameOn whole s.dest (curr + dblocks) (4 * N_DBLOCKS))
    (hread : ∀ u ∈ rowBlocks g whole n 0 (curr + dblocks) N_DBLOCKS
      (remaining g s), Readable g whole u)
    (hfit : g.blockAt (s.blockIndex
      + weigh (nodes n 0) (n ^ 0) N_DBLOCKS (remaining g s)) ≤ whole.size) :
    ∃ s', directBlocks g whole curr s = some s' := by
  refine forSlots_runs hB (fun s _ => fileDone_iff s) ?_ hs hroom
    (slots_of_sameOn hsame) hread hfit
  intro i hi t ht hleft hroom' hkid hread' hfit'
  simp only [dblocks] at *
  rw [Nat.zero_add, ← hkid]
  have hslot : curr + 36 + INT_SIZE * i + 4 ≤ g.blockAt t.blockIndex := by
    unfold INT_SIZE
    omega
  obtain ⟨t', hrun⟩ := copyData_runs (curr + 36 + INT_SIZE * i) hB ht
    (by unfold INT_SIZE; omega) hslot
    (by rw [hkid]; exact hread' _ List.mem_cons_self) hfit' hleft
  exact ⟨t', hrun, copyData_spec hB ht hslot hleft hrun⟩

theorem lv1Blocks_runs (hB : Bounds g whole.size n)
    (hs : Sane g whole.size s) (hlo : 0 ≤ curr)
    (hroom : curr + iblocks + 4 * N_IBLOCKS ≤ g.blockAt s.blockIndex)
    (hsame : Buffer.SameOn whole s.dest (curr + iblocks) (4 * N_IBLOCKS))
    (hread : ∀ u ∈ rowBlocks g whole n 1 (curr + iblocks) N_IBLOCKS
      (remaining g s), Readable g whole u)
    (hfit : g.blockAt (s.blockIndex
      + weigh (nodes n 1) (n ^ 1) N_IBLOCKS (remaining g s)) ≤ whole.size) :
    ∃ s', lv1Blocks g whole curr s = some s' := by
  unfold lv1Blocks
  by_cases hfin : s.finished = true
  · rw [if_pos hfin]
    exact ⟨s, rfl⟩
  rw [if_neg hfin]
  refine forSlots_runs hB (fun s hs => fileDoneOrFinished_iff hs) ?_ hs hroom
    (slots_of_sameOn hsame) hread hfit
  intro i hi t ht _ hroom' hkid hread' hfit'
  have hsize := hs.size
  have hsroom := hs.room
  simp only [iblocks] at *
  have hslot : curr + 76 + INT_SIZE * i + 4 ≤ g.blockAt t.blockIndex := by
    unfold INT_SIZE
    omega
  have hlo' : 0 ≤ curr + 76 + INT_SIZE * i := by
    unfold INT_SIZE
    omega
  obtain ⟨below, u, t', hcopy, hnext⟩ := slot_runs hB (currBlock_runs hB 0) ht
    hlo' hslot hread' hfit'
  refine ⟨t', ?_, slot_of_index hB (currBlock_copies hB 0) ht hslot hcopy
    hnext⟩
  have hin : whole.Within (curr + 76 + INT_SIZE * i) 4 := by
    refine ⟨hlo', by omega, ?_⟩
    unfold INT_SIZE
    omega
  simp only [Nat.zero_add, Option.bind_eq_bind]
  rw [Buffer.loadInt_of_within hin, Option.bind_some, hcopy, Option.bind_some]
  exact hnext

theorem topBlock_runs (base : Int) (hB : Bounds g whole.size n)
    (hs : Sane g whole.size s) (hlo : 0 ≤ base)
    (hroom : base + 4 ≤ g.blockAt s.blockIndex)
    (hread : ¬s.finished = true → ∀ u ∈ preorder (rawChild g whole) n (d + 1)
      (whole.int base) (remaining g s), Readable g whole u)
    (hfit : ¬s.finished = true →
      g.blockAt (s.blockIndex + nodes n (d + 1) (remaining g s))
        ≤ whole.size) :
    ∃ s', topBlock g whole (currBlock g whole d) base s = some s' := by
  unfold topBlock
  by_cases hfin : s.finished = true
  · rw [if_pos hfin]
    exact ⟨s, rfl⟩
  have hsize := hs.size
  have hsroom := hs.room
  have hin : whole.Within base 4 := ⟨hlo, by omega, by omega⟩
  obtain ⟨below, u, s', hcopy, hnext⟩ := slot_runs hB (currBlock_runs hB d) hs
    hlo hroom (hread hfin) (hfit hfin)
  simp only [Option.bind_eq_bind]
  rw [if_neg hfin, Buffer.loadInt_of_within hin, Option.bind_some, hcopy,
    Option.bind_some]
  exact ⟨s', hnext⟩

/-- The blocks the inode at `curr` needs, as the program finds them. -/
def rawBlocks (g : Regions) (whole : Buffer) (n : Nat) (curr : Int) :
    List Int :=
  preorderRoots (rawChild g whole) n (roots whole curr)
    (fileLength g whole curr)

/-- Every block that is copied for the inode at `curr` can be read. -/
structure AllReadable (g : Regions) (whole : Buffer) (n : Nat) (curr : Int) :
    Prop where
  needed : ∀ u ∈ rawBlocks g whole n curr, Readable g whole u
  spare : ∀ o ∈ spareSlots n (fileLength g whole curr),
    Readable g whole (whole.int (curr + o))

/-- The blocks an inode needs, group by group. -/
theorem rawBlocks_eq (g : Regions) (whole : Buffer) (n : Nat) (curr : Int) :
    rawBlocks g whole n curr
      = rowBlocks g whole n 0 (curr + dblocks) N_DBLOCKS
          (fileLength g whole curr)
        ++ (rowBlocks g whole n 1 (curr + iblocks) N_IBLOCKS
            (fileLength g whole curr - N_DBLOCKS * n ^ 0)
          ++ (rowBlocks g whole n 2 (curr + i2block) 1
              (fileLength g whole curr - N_DBLOCKS * n ^ 0 - N_IBLOCKS * n ^ 1)
            ++ rowBlocks g whole n 3 (curr + i3block) 1
              (fileLength g whole curr - N_DBLOCKS * n ^ 0 - N_IBLOCKS * n ^ 1
                - 1 * n ^ 2))) := by
  simp only [rawBlocks, rowBlocks, roots, preorderRoots, Root.cap,
    List.append_nil]

/-- A row of one slot that is needed. -/
theorem rowBlocks_one (g : Regions) (whole : Buffer) (n d : Nat) (base : Int)
    {r : Nat} (hr : r ≠ 0) :
    rowBlocks g whole n d base 1 r
      = preorder (rawChild g whole) n d (whole.int base) r := by
  unfold rowBlocks
  rw [forest, if_neg hr, forest, List.append_nil]
  simp

/-- An index block with nothing below it. -/
theorem preorder_zero (child : Int → Nat → Int) (n d : Nat) (v : Int) :
    preorder child n (d + 1) v 0 = [v] := by
  rw [preorder, Lib.forest_zero]

/-- A top index block can be read and has room, whether it is needed or
spare. -/
theorem topBlock_ready {r : Nat}
    (hneeded : r ≠ 0 → ∀ u ∈ rowBlocks g whole n (d + 1) base 1 r,
      Readable g whole u)
    (hspare : r = 0 → Readable g whole (whole.int base)) :
    ∀ u ∈ preorder (rawChild g whole) n (d + 1) (whole.int base) r,
      Readable g whole u := by
  by_cases hr : r = 0
  · subst hr
    rw [preorder_zero]
    intro u hu
    rw [List.mem_singleton.mp hu]
    exact hspare rfl
  · rw [← rowBlocks_one g whole n (d + 1) base hr]
    exact hneeded hr

/-- What a top index block takes, whether it is needed or spare. -/
theorem nodes_le (spare : Nat) {r : Nat} (h : r = 0 → 1 ≤ spare) :
    nodes n (d + 1) r
      ≤ weigh (nodes n (d + 1)) (n ^ (d + 1)) 1 r + spare := by
  by_cases hr : r = 0
  · have := h hr
    subst hr
    rw [nodes_zero]
    omega
  · rw [weigh, if_neg hr]
    omega

/-- What `copyFile` needs to get through: its blocks and its spare block
can be read, and behind `start` there is room for all of them. -/
structure FileFits (g : Regions) (whole : Buffer) (n : Nat) (curr start : Int) :
    Prop extends AllReadable g whole n curr where
  room : g.blockAt (start + nodesRoots n (roots whole curr)
    (fileLength g whole curr) + (spareSlots n (fileLength g whole curr)).length)
      ≤ whole.size

/-- The blocks of one group can be read. -/
theorem AllReadable.rows (h : AllReadable g whole n curr) :
    (∀ u ∈ rowBlocks g whole n 0 (curr + dblocks) N_DBLOCKS
        (fileLength g whole curr), Readable g whole u)
      ∧ (∀ u ∈ rowBlocks g whole n 1 (curr + iblocks) N_IBLOCKS
          (fileLength g whole curr - N_DBLOCKS * n ^ 0), Readable g whole u)
      ∧ (∀ u ∈ rowBlocks g whole n 2 (curr + i2block) 1
          (fileLength g whole curr - N_DBLOCKS * n ^ 0 - N_IBLOCKS * n ^ 1),
            Readable g whole u)
      ∧ ∀ u ∈ rowBlocks g whole n 3 (curr + i3block) 1
          (fileLength g whole curr - N_DBLOCKS * n ^ 0 - N_IBLOCKS * n ^ 1
            - 1 * n ^ 2), Readable g whole u := by
  have hneeded := h.needed
  rw [rawBlocks_eq] at hneeded
  simp only [List.mem_append] at hneeded
  exact ⟨fun u hu => hneeded u (.inl hu), fun u hu => hneeded u (.inr (.inl hu)),
    fun u hu => hneeded u (.inr (.inr (.inl hu))),
    fun u hu => hneeded u (.inr (.inr (.inr hu)))⟩

/-- There is room for every part of the file. -/
theorem FileFits.upTo {start a : Int} (hB : Bounds g whole.size n)
    (h : FileFits g whole n curr start)
    (ha : a ≤ start
      + (weigh (nodes n 0) (n ^ 0) N_DBLOCKS (fileLength g whole curr)
        + (weigh (nodes n 1) (n ^ 1) N_IBLOCKS
            (fileLength g whole curr - N_DBLOCKS * n ^ 0)
          + (weigh (nodes n 2) (n ^ 2) 1 (fileLength g whole curr
                - N_DBLOCKS * n ^ 0 - N_IBLOCKS * n ^ 1)
            + weigh (nodes n 3) (n ^ 3) 1 (fileLength g whole curr
                - N_DBLOCKS * n ^ 0 - N_IBLOCKS * n ^ 1 - 1 * n ^ 2))))
      + (spareSlots n (fileLength g whole curr)).length) :
    g.blockAt a ≤ whole.size := by
  have hroom := h.room
  rw [nodesRoots_roots] at hroom
  push_cast at hroom
  exact (hB.blockAt_mono ha).trans hroom

/-- The direct and single indirect pointers come through. -/
theorem lowPhases_run {s₀ : State} (hB : Bounds g whole.size n)
    (hs₀ : Sane g whole.size s₀) (hopen : s₀.finished = false)
    (hlength : remaining g s₀ = fileLength g whole curr) (hlo : 0 ≤ curr)
    (hroom : curr + INODE_SIZE ≤ g.blockAt s₀.blockIndex)
    (hsame : Buffer.SameOn whole s₀.dest curr INODE_SIZE)
    (hfits : FileFits g whole n curr s₀.blockIndex) :
    ∃ s₁ s₂, directBlocks g whole curr s₀ = some s₁
      ∧ lv1Blocks g whole curr s₁ = some s₂
      ∧ LowPhases g whole n curr s₀ s₁ s₂ := by
  obtain ⟨hread₀, hread₁, -⟩ := hfits.rows
  have hbelow := hroom
  simp only [INODE_SIZE] at hroom
  have hsame' : Buffer.SameOn whole s₀.dest (curr + dblocks) (4 * N_DBLOCKS) :=
    hsame.mono (by simp only [dblocks]; omega)
      (by simp only [dblocks, N_DBLOCKS, INODE_SIZE]; omega)
  obtain ⟨s₁, h₁⟩ := directBlocks_runs hB hs₀ hlo
    (by simp only [dblocks, N_DBLOCKS]; omega) hsame'
    (by rw [hlength]; exact hread₀)
    (by rw [hlength]; exact hfits.upTo hB (by omega))
  have p₁ := directBlocks_row hB hs₀
    (by simp only [dblocks, N_DBLOCKS]; omega) hsame' h₁
  have i₁ := p₁.index
  have m₁ := hB.blockAt_mono (show s₀.blockIndex ≤ s₁.blockIndex by omega)
  have r₁ := p₁.remaining
  rw [hlength] at i₁ r₁
  obtain ⟨s₂, h₂⟩ := lv1Blocks_runs hB p₁.sane hlo
    (by simp only [iblocks, N_IBLOCKS]; omega) (iblocks_same p₁ hbelow hsame)
    (by rw [r₁]; exact hread₁)
    (by rw [r₁]; exact hfits.upTo hB (by omega))
  exact ⟨s₁, s₂, h₁, h₂,
    .of_blocks hB hs₀ hopen hlength hbelow hsame h₁ h₂⟩

/-- Where the double indirect block comes, and what is left for it. -/
theorem LowPhases.start_lv2 {s₀ s₁ s₂ : State}
    (h : LowPhases g whole n curr s₀ s₁ s₂) :
    s₂.blockIndex = s₀.blockIndex
        + (weigh (nodes n 0) (n ^ 0) N_DBLOCKS (fileLength g whole curr)
          + weigh (nodes n 1) (n ^ 1) N_IBLOCKS
              (fileLength g whole curr - N_DBLOCKS * n ^ 0) : Nat)
      ∧ Defrag.remaining g s₂ = fileLength g whole curr - N_DBLOCKS * n ^ 0
          - N_IBLOCKS * n ^ 1 := by
  have i₁ := h.direct.index
  have i₂ := h.lv1.index
  have r₁ := h.direct.remaining
  have r₂ := h.lv1.remaining
  rw [h.length] at i₁ r₁
  rw [r₁] at i₂ r₂
  refine ⟨?_, r₂⟩
  push_cast
  omega

/-- The double indirect block comes through. -/
theorem LowPhases.lv2_runs {s₀ s₁ s₂ : State} (hB : Bounds g whole.size n)
    (h : LowPhases g whole n curr s₀ s₁ s₂) (hlo : 0 ≤ curr)
    (hfits : FileFits g whole n curr s₀.blockIndex) :
    ∃ s₃, topBlock g whole (currBlock g whole 1) (curr + i2block) s₂
      = some s₃ := by
  obtain ⟨-, -, hread, -⟩ := hfits.rows
  obtain ⟨i₂, r₂⟩ := h.start_lv2
  obtain ⟨r₂', f₂⟩ := h.flags
  have hroom := h.room_low hB
  simp only [INODE_SIZE] at hroom
  have hspare (hfin : ¬s₂.finished = true) (hr : Defrag.remaining g s₂ = 0) :
      spareSlots n (fileLength g whole curr) = [i2block] := by
    have := mt f₂.mpr hfin
    exact spareSlots_lv2 (by omega)
  refine topBlock_runs (curr + i2block) hB h.lv1.sane
    (by simp only [i2block]; omega) (by simp only [i2block]; omega) ?_ ?_
  · intro hfin
    refine topBlock_ready (fun _ u hu => hread u (r₂ ▸ hu)) fun hr => ?_
    exact hfits.spare _ (by rw [hspare hfin hr]; exact List.mem_cons_self)
  · intro hfin
    have := nodes_le (n := n) (d := 1) (r := Defrag.remaining g s₂)
      (spareSlots n (fileLength g whole curr)).length
      (fun hr => by rw [hspare hfin hr]; simp)
    rw [r₂] at this ⊢
    simp only [Nat.reduceAdd] at this ⊢
    exact hfits.upTo hB (by omega)

/-- The triple indirect block comes through. -/
theorem LowPhases.lv3_runs {s₀ s₁ s₂ s₃ : State} (hB : Bounds g whole.size n)
    (h : LowPhases g whole n curr s₀ s₁ s₂)
    (h₃ : TopPost g whole n 1 (curr + i2block) s₂ s₃) (hlo : 0 ≤ curr)
    (hfits : FileFits g whole n curr s₀.blockIndex) :
    ∃ s', topBlock g whole (currBlock g whole 2) (curr + i3block) s₃
      = some s' := by
  obtain ⟨-, -, -, hread⟩ := hfits.rows
  obtain ⟨i₂, r₂⟩ := h.start_lv2
  obtain ⟨r₃', f₃⟩ := h.flags_lv2 hB h₃
  obtain ⟨r₂', -⟩ := h.flags
  have hsq := Nat.pow_pos (n := 2) hB.pos
  have hroot := h₃.root hB h.lv1.sane
  have i₃ := h₃.index hB h.lv1.sane
  have r₃ := h₃.remaining hB h.lv1.sane
  have hbelow := h.room_low hB
  have hmono := hB.blockAt_mono (show s₂.blockIndex ≤ s₃.blockIndex by
    have := hroot.index
    omega)
  simp only [INODE_SIZE] at hbelow
  have hspare (hfin : ¬s₃.finished = true) (hr : Defrag.remaining g s₃ = 0) :
      spareSlots n (fileLength g whole curr) = [i3block] := by
    have := mt f₃.mpr hfin
    exact spareSlots_lv3 hB.pos (by omega)
  have j₃ (hfin : ¬s₃.finished = true) : s₃.blockIndex = s₂.blockIndex
      + weigh (nodes n 2) (n ^ 2) 1 (Defrag.remaining g s₂) := by
    have := mt f₃.mpr hfin
    rw [i₃, if_pos (.inr (by omega))]
    simp
  rw [r₂] at r₃ j₃
  simp only [Nat.reduceAdd] at r₃
  rw [show ∀ a : Nat, a - n ^ 2 = a - 1 * n ^ 2 by simp] at r₃
  refine topBlock_runs (curr + i3block) hB hroot.sane
    (by simp only [i3block]; omega) (by simp only [i3block]; omega) ?_ ?_
  · intro hfin
    refine topBlock_ready (fun _ u hu => hread u (r₃ ▸ hu)) fun hr => ?_
    exact hfits.spare _ (by rw [hspare hfin hr]; exact List.mem_cons_self)
  · intro hfin
    have := nodes_le (n := n) (d := 2) (r := Defrag.remaining g s₃)
      (spareSlots n (fileLength g whole curr)).length
      (fun hr => by rw [hspare hfin hr]; simp)
    have := j₃ hfin
    rw [r₃] at *
    simp only [Nat.reduceAdd] at *
    exact hfits.upTo hB (by omega)

/-- A file whose blocks can be read and fit is copied. -/
theorem copyFile_runs (hB : Bounds g whole.size n)
    (hs : Sane g whole.size s) (hlo : 0 ≤ curr)
    (hroom : curr + INODE_SIZE ≤ g.blockAt s.blockIndex)
    (hsame : Buffer.SameOn whole s.dest curr INODE_SIZE)
    (hfits : FileFits g whole n curr s.blockIndex) :
    ∃ s', copyFile g whole curr s = some s' := by
  have hin : s.dest.Within (curr + size) 4 := by
    have hsize := hs.size
    have hsroom := hs.room
    simp only [size, INODE_SIZE] at *
    exact ⟨by omega, by omega, by omega⟩
  obtain ⟨hs₀, hlength⟩ := hs.opened (size_same hsame)
  obtain ⟨s₁, s₂, h₁, h₂, hlow⟩ :=
    lowPhases_run hB hs₀ rfl hlength hlo hroom hsame hfits
  obtain ⟨s₃, h₃⟩ := hlow.lv2_runs hB hlo hfits
  have hbelow := hlow.room_low hB
  simp only [INODE_SIZE] at hbelow
  have p₃ := topBlock_spec (curr + i2block) hB hlow.lv1.sane
    (by simp only [i2block]; omega) h₃
  obtain ⟨s', h₄⟩ := hlow.lv3_runs hB p₃ hlo hfits
  refine ⟨s', ?_⟩
  unfold copyFile lv2Block currBlockLv2 lv3Block currBlockLv3
  simp only [Option.bind_eq_bind]
  rw [Buffer.loadInt_of_within hin, Option.bind_some, h₁, Option.bind_some,
    h₂, Option.bind_some, h₃, Option.bind_some, h₄]

-- =============================================================== the loop

theorem copyInode_runs (hB : Bounds g whole.size n)
    (hs : Sane g whole.size s) {i : Nat} (hi : i < g.numInode.toNat)
    (hread : Live whole (g.inode i) → AllReadable g whole n (g.inode i))
    (hfit : g.blockAt (s.blockIndex + inodeTaken g whole n i) ≤ whole.size) :
    ∃ s', copyInode g whole i s = some s' := by
  have hrange := hB.inode_range hi
  have hdata := hB.data
  have hinode := hB.inode
  have hindex := hB.data_le hs.index
  have hsize := hs.size
  have h100 : INODE_SIZE = 100 := rfl
  have hin : whole.Within (g.inode i) INODE_SIZE :=
    ⟨by omega, by omega, by omega⟩
  have hin' : s.dest.Within (g.inode i) INODE_SIZE :=
    ⟨by omega, by omega, by omega⟩
  unfold copyInode
  simp only [Option.bind_eq_bind]
  rw [Buffer.memcpy_of_within hin' hin, Option.bind_some]
  generalize hdest : s.dest.blit (g.inode i) whole (g.inode i) INODE_SIZE
    = dest
  have hsame : Buffer.SameOn whole dest (g.inode i) INODE_SIZE := by
    intro x hlo hhi
    rw [← hdest, Buffer.blit_byte_inside hlo hhi]
    congr 1
    omega
  have hdsize : dest.size = whole.size := by
    rw [← hdest]
    exact hsize
  have hload : dest.Within (g.inode i + nlink) 4 := by
    simp only [nlink]
    exact ⟨by omega, by omega, by omega⟩
  have hlinks : dest.int (g.inode i + nlink) = whole.int (g.inode i + nlink) :=
    Buffer.int_congr (hsame.mono (by simp only [nlink]; omega)
      (by simp only [nlink]; omega))
  rw [Buffer.loadInt_of_within hload, Option.bind_some, hlinks]
  by_cases hlive : Live whole (g.inode i)
  · rw [if_neg hlive]
    unfold inodeTaken at hfit
    rw [if_pos hlive] at hfit
    unfold fileNodes at hfit
    push_cast at hfit
    refine copyFile_runs hB ⟨hdsize, hs.index, hs.room,
      show (0 : Int) < 2147483648 by decide, fun _ => Int.le_refl 0⟩
      (by omega) (by dsimp only; omega) hsame ⟨hread hlive, ?_⟩
    rwa [Int.add_assoc]
  · rw [if_pos (not_ne_iff.mp hlive)]
    exact ⟨_, rfl⟩

theorem takenBefore_mono (g : Regions) (whole : Buffer) (n : Nat) {i j : Nat}
    (h : i ≤ j) : takenBefore g whole n i ≤ takenBefore g whole n j := by
  induction h with
  | refl => exact Nat.le_refl _
  | step _ ih =>
      rw [takenBefore_succ]
      omega

/-- The outmost loop, from inode `i` on. -/
theorem inodesFrom_runs (hB : Bounds g whole.size n)
    (hread : ∀ i < g.numInode.toNat, Live whole (g.inode i) →
      AllReadable g whole n (g.inode i))
    (hfit : g.blockAt (takenBefore g whole n g.numInode.toNat) ≤ whole.size) :
    ∀ {count i : Nat} {s : State}, Counted g whole n i s →
      i + count = g.numInode.toNat →
      ∃ s', inodesFrom g whole i count s = some s' := by
  intro count
  induction count with
  | zero => intro i s _ _; exact ⟨s, rfl⟩
  | succ count ih =>
      intro i s h hi
      have hle := takenBefore_mono g whole n (show i + 1 ≤ g.numInode.toNat by
        omega)
      rw [takenBefore_succ] at hle
      have hmono := hB.blockAt_mono (show s.blockIndex + inodeTaken g whole n i
          ≤ takenBefore g whole n g.numInode.toNat by
        rw [h.index]
        omega)
      obtain ⟨t, ht⟩ := copyInode_runs hB h.progress.sane (i := i) (by omega)
        (hread i (by omega)) (by omega)
      unfold inodesFrom
      rw [ht]
      exact ih (h.step hB (by omega) ht) (by omega)

/-- The inode loop makes no wild access when everything that is copied can
be read and everything that is taken fits. -/
theorem inodeLoop_runs (hB : Bounds g whole.size n)
    (hread : ∀ i < g.numInode.toNat, Live whole (g.inode i) →
      AllReadable g whole n (g.inode i))
    (hfit : g.blockAt (takenBefore g whole n g.numInode.toNat) ≤ whole.size) :
    ∃ s, inodeLoop g whole = some s := by
  obtain ⟨s₀, hopen, hrun⟩ := inodeLoop_eq hB
  rw [hrun]
  exact inodesFrom_runs hB hread hfit hopen.counted (Nat.zero_add _)

-- ============================================================ and only then

/-- What a top index block that is not skipped has read. -/
theorem TopPost.read (h : TopPost g whole n d base s s')
    (hfin : ¬s.finished = true) :
    ∀ u ∈ preorder (rawChild g whole) n (d + 1) (whole.int base)
      (Defrag.remaining g s), Readable g whole u := by
  unfold TopPost at h
  rw [if_neg hfin] at h
  exact h.read

/-- The row of a top index block has been read. -/
theorem TopPost.read_row (hB : Bounds g whole.size n)
    (hs : Sane g whole.size s) (h : TopPost g whole n d base s s') :
    ∀ u ∈ rowBlocks g whole n (d + 1) base 1 (Defrag.remaining g s),
      Readable g whole u := by
  by_cases hr : Defrag.remaining g s = 0
  · rw [hr]
    unfold rowBlocks
    rw [Lib.forest_zero]
    exact fun _ hu => absurd hu List.not_mem_nil
  · rw [rowBlocks_one g whole n (d + 1) base hr]
    refine h.read fun hfin => hr ?_
    exact (blocksFor_eq_zero hB).mpr (hs.flag hfin)

/-- A file that has been copied could be read. -/
theorem FilePhases.allReadable {s₀ s₁ s₂ s₃ : State}
    (hB : Bounds g whole.size n)
    (h : FilePhases g whole n curr s₀ s₁ s₂ s₃ s') :
    AllReadable g whole n curr := by
  have hs₂ := h.lv1.sane
  have hs₃ := (h.lv2.root hB hs₂).sane
  have r₁ := h.direct.remaining
  have r₂ := h.lv1.remaining
  have r₃ := h.lv2.remaining hB hs₂
  rw [h.length] at r₁
  rw [r₁] at r₂
  rw [r₂] at r₃
  obtain ⟨r₂', f₂⟩ := h.flags
  obtain ⟨r₃', f₃⟩ := h.flags_lv2 hB h.lv2
  have hsq := Nat.pow_pos (n := 2) hB.pos
  constructor
  case needed =>
    rw [rawBlocks_eq]
    intro u hu
    simp only [List.mem_append] at hu
    rcases hu with hu | hu | hu | hu
    · exact h.direct.read u (by rw [h.length]; exact hu)
    · exact h.lv1.read u (by rw [r₁]; exact hu)
    · exact h.lv2.read_row hB hs₂ u (by rw [r₂]; exact hu)
    · refine h.lv3.read_row hB hs₃ u ?_
      rw [r₃, show (1 + 1 : Nat) = 2 from rfl]
      rwa [Nat.one_mul] at hu
  case spare =>
    intro o ho
    rcases (mem_spareSlots ho).2 with ⟨hlen, rfl⟩ | ⟨hlen, rfl⟩
    · refine h.lv2.read (mt f₂.mp (by omega)) _ ?_
      rw [show remaining g s₂ = 0 by omega, preorder_zero]
      exact List.mem_cons_self
    · refine h.lv3.read (mt f₃.mp (by omega)) _ ?_
      rw [show remaining g s₃ = 0 by omega, preorder_zero]
      exact List.mem_cons_self

/-- The inode loop makes no wild access if and only if everything that is
copied can be read and everything that is taken fits. -/
theorem inodeLoop_runs_iff (hB : Bounds g whole.size n) :
    (∃ s, inodeLoop g whole = some s)
      ↔ (∀ i < g.numInode.toNat, Live whole (g.inode i) →
          AllReadable g whole n (g.inode i))
        ∧ g.blockAt (takenBefore g whole n g.numInode.toNat)
          ≤ whole.size := by
  constructor
  case mpr => exact fun h => inodeLoop_runs hB h.1 h.2
  intro ⟨s, hrun⟩
  have hc := inodeLoop_counted hB hrun
  refine ⟨?_, hc.index ▸ hc.progress.sane.room⟩
  obtain ⟨s₀, hopen, hfrom⟩ := inodeLoop_eq hB
  rw [hfrom] at hrun
  refine (inodesFrom_invariant (P := fun i t => Counted g whole n i t
    ∧ ∀ j < i, Live whole (g.inode j) → AllReadable g whole n (g.inode j))
    ?_ ⟨hopen.counted, fun j hj => absurd hj (Nat.not_lt_zero j)⟩
    (Nat.zero_add _) hrun).2
  intro i t t' hi ⟨ht, hread⟩ hcopy
  refine ⟨ht.step hB hi hcopy, fun j hj hlive => ?_⟩
  rcases Nat.lt_succ_iff_lt_or_eq.mp hj with hj | rfl
  · exact hread j hj hlive
  · have hrange := hB.inode_range hi
    have hdata := hB.data_le ht.progress.sane.index
    obtain ⟨u, -, hu, hindex, -, hsame, -, hfile⟩ :=
      copyInode_cases ht.progress.sane hcopy
    rw [if_pos hlive] at hfile
    obtain ⟨u₀, u₁, u₂, u₃, -, hp, -⟩ := copyFile_phases hB hu
      (by rw [hindex]; omega) hsame hfile
    exact hp.allReadable hB

end OperatingSystem.Defrag
