/-
A second pass over an image that has been defragmented.

# The argument

In such an image every needed block has the number the copying loops are
going to give it (`Numbered`). A loop that reads the number `block_index`
from a slot copies that block onto its own place and stores the number that
is already there: nothing changes but the block, which becomes the source's
(`Stays`). Stale entries behind a file's end, unused bytes and the spare
block of a file that fills a level are copied with the block they stand in.

So after the inode loop the second destination holds the source in every
record and every taken block and zeros elsewhere, and the steps behind the
loop are the same as the first time. What is needed of the first pass is
that its output is well formed and numbered, and this is where 1024 spare
bytes at the end of the data region come in: then the copy of the swap
region covers free blocks only.
-/
import OperatingSystem.Defrag.Leak

namespace OperatingSystem.Defrag

open Lib (Buffer i32 Root Mirror MirrorSlots MirrorRoots nodes full weigh
  nodesRoots consecutive)

variable {g : Regions} {whole : Buffer} {s s' t : State} {n d : Nat}
  {slot base curr : Int}

-- ===================================================== onto its own place

/-- From `s` to `s'` blocks of the source have been copied onto their own
places, and nothing else has changed. -/
def Stays (g : Regions) (whole : Buffer) (s s' : State) : Prop :=
  ∀ x, s'.dest.byte x
    = if g.blockAt s.blockIndex ≤ x ∧ x < g.blockAt s'.blockIndex
      then whole.byte x else s.dest.byte x

theorem Stays.same (hdest : s'.dest = s.dest)
    (hindex : s'.blockIndex = s.blockIndex) : Stays g whole s s' := by
  intro x
  rw [hdest, hindex, if_neg (by omega)]

theorem Stays.trans {fileSize : Int} (hB : Bounds g fileSize n)
    (h₁ : Stays g whole s t) (h₂ : Stays g whole t s')
    (hst : s.blockIndex ≤ t.blockIndex) (hts : t.blockIndex ≤ s'.blockIndex) :
    Stays g whole s s' := by
  have hlo := hB.blockAt_mono hst
  have hhi := hB.blockAt_mono hts
  intro x
  rw [h₂ x, h₁ x]
  by_cases hnew : g.blockAt t.blockIndex ≤ x ∧ x < g.blockAt s'.blockIndex
  · rw [if_pos hnew, if_pos (by omega)]
  rw [if_neg hnew]
  by_cases hold : g.blockAt s.blockIndex ≤ x ∧ x < g.blockAt t.blockIndex
  · rw [if_pos hold, if_pos (by omega)]
  · rw [if_neg hold, if_neg (by omega)]

/-- Copying block `block_index` and storing its number. -/
theorem stays_of_store (hB : Bounds g whole.size n)
    (hs : Sane g whole.size s) (hslot : slot + 4 ≤ g.blockAt s.blockIndex)
    (hself : s.dest.int slot = s.blockIndex)
    (hindex : t.blockIndex = s.blockIndex + 1)
    (ht : t.dest = (s.dest.blit (g.blockAt s.blockIndex) whole
      (g.block s.blockIndex) g.blockSize).putInt slot s.blockIndex) :
    Stays g whole s t := by
  have hkept : (s.dest.blit (g.blockAt s.blockIndex) whole
      (g.block s.blockIndex) g.blockSize).int slot = s.blockIndex :=
    (Buffer.int_congr fun x _ hx =>
      Buffer.blit_byte_outside (.inl (by omega))).trans hself
  intro x
  rw [ht, Buffer.putInt_byte_same hkept, hindex, blockAt_succ,
    (hB.block_eq hs.index hs.room).1]
  by_cases hin : g.blockAt s.blockIndex ≤ x
    ∧ x < g.blockAt s.blockIndex + g.blockSize
  · rw [if_pos hin, Buffer.blit_byte_inside hin.1 hin.2]
    congr 1
    omega
  · rw [if_neg hin, Buffer.blit_byte_outside (by omega)]

theorem copyIndex_stays (hB : Bounds g whole.size n)
    (hs : Sane g whole.size s) (hslot : slot + 4 ≤ g.blockAt s.blockIndex)
    (hself : s.dest.int slot = s.blockIndex) {below : Int}
    (h : copyIndex g whole s.blockIndex slot s = some (below, s')) :
    Stays g whole s s' := by
  obtain ⟨-, hw, -⟩ := copyIndex_spec hB hs hslot h
  simp only [copyIndex, Option.bind_eq_bind, Option.bind_eq_some_iff,
    Option.some.injEq, Prod.mk.injEq] at h
  obtain ⟨s₁, hcopy, dest, hstore, -, hs'⟩ := h
  obtain ⟨rfl, -⟩ := copyBlock_spec hB hs hcopy
  have hdest := (Buffer.storeInt_eq_some hstore).2
  refine stays_of_store hB hs hslot hself hw.index ?_
  rw [← hs', hdest]

theorem copyData_stays (hB : Bounds g whole.size n)
    (hs : Sane g whole.size s) (hslot : slot + 4 ≤ g.blockAt s.blockIndex)
    (hself : s.dest.int slot = s.blockIndex) (hleft : 0 < s.thisFileSize)
    (h : copyData g whole slot s = some s') : Stays g whole s s' := by
  have hp := copyData_spec hB hs hslot hleft h
  simp only [copyData, Option.bind_eq_bind, Option.bind_eq_some_iff,
    Option.some.injEq] at h
  obtain ⟨ptr, hload, s₁, hcopy, dest, hstore, hs'⟩ := h
  have hptr := (Buffer.loadInt_eq_some hload).2
  have hdest := (Buffer.storeInt_eq_some hstore).2
  have hs₀ : Sane g whole.size
      { s with thisFileSize := i32 (s.thisFileSize - g.blockSize) } :=
    ⟨hs.size, hs.index, hs.room, Lib.i32_lt _, fun hf => by
      have := hs.flag hf
      omega⟩
  obtain ⟨hs₁, -⟩ := copyBlock_spec hB hs₀ hcopy
  refine stays_of_store hB hs hslot hself hp.index ?_
  subst hs' hdest hs₁
  rw [show ptr = s.blockIndex from hptr.trans hself]

-- =========================================================== whole trees

/-- Every needed block below `v` has its pre-order number, `v` being the
first. -/
def Numbered (g : Regions) (whole : Buffer) (n d : Nat) (v v' : Int) (r : Nat) :
    Prop :=
  Mirror (fun _ _ => True) (child g whole) (child g whole) n d v v' r

/-- The same of a row. -/
def NumberedRow (g : Regions) (whole : Buffer) (n d : Nat) (kids : Nat → Int)
    (start : Int) (count r : Nat) : Prop :=
  MirrorSlots (Numbered g whole n d) (n ^ d) (full n d) kids kids start count r

/-- A loop over a row of numbered slots leaves everything in place when its
body does. -/
theorem forSlots_stays (hB : Bounds g whole.size n) {stop : State → Bool}
    {body : Nat → State → Option State}
    (hstop : ∀ s, Sane g whole.size s →
      (stop s = true ↔ s.thisFileSize ≤ 0)) :
    ∀ {count j : Nat} {base : Int} {kids : Nat → Int} {s s' : State},
      (∀ i, i < count → ∀ t t', Sane g whole.size t → 0 < t.thisFileSize →
        base + 4 * count ≤ g.blockAt t.blockIndex →
        t.dest.int (base + INT_SIZE * i) = kids i → kids i = t.blockIndex →
        Numbered g whole n d (kids i) t.blockIndex (remaining g t) →
        body (j + i) t = some t' →
        SlotPost g whole n d (base + INT_SIZE * i) (kids i) t t'
          ∧ Stays g whole t t') →
      Sane g whole.size s → base + 4 * count ≤ g.blockAt s.blockIndex →
      (∀ i, i < count → s.dest.int (base + INT_SIZE * i) = kids i) →
      NumberedRow g whole n d kids s.blockIndex count (remaining g s) →
      forSlots stop body j count s = some s' →
      s.blockIndex ≤ s'.blockIndex ∧ Stays g whole s s' := by
  intro count
  induction count with
  | zero =>
      intro j base kids s s' _ _ _ _ _ h
      obtain rfl := Option.some.inj h
      exact ⟨Int.le_refl _, .same rfl rfl⟩
  | succ count ih =>
      intro j base kids s s' hbody hs hbase hkids hnum h
      unfold forSlots at h
      split at h
      case isTrue =>
        obtain rfl := Option.some.inj h
        exact ⟨Int.le_refl _, .same rfl rfl⟩
      case isFalse hst =>
        have hleft : 0 < s.thisFileSize := by
          by_contra hno
          exact hst ((hstop s hs).mpr (by omega))
        have hr : remaining g s ≠ 0 := fun hr => by
          have := (blocksFor_eq_zero hB).mp hr
          omega
        obtain ⟨hfirst, hbelow, hrest⟩ := hnum.resolve_left hr
        split at h
        next => cases h
        next t ht =>
          obtain ⟨h₁, hstay⟩ := hbody 0 (Nat.succ_pos count) s t hs hleft hbase
            (hkids 0 (Nat.succ_pos count)) hfirst hbelow ht
          rw [show base + INT_SIZE * (0 : Nat) = base by simp] at h₁
          have hslot (i : Nat) : base + 4 + INT_SIZE * i
              = base + INT_SIZE * (i + 1 : Nat) := by
            unfold INT_SIZE
            push_cast
            ring
          have hindex := h₁.index
          have hgrow : s.blockIndex ≤ t.blockIndex := by omega
          have hmono := hB.blockAt_mono hgrow
          push_cast at hbase
          have hnext : NumberedRow g whole n d (fun i => kids (i + 1))
              t.blockIndex count (remaining g t) := by
            rw [h₁.remaining]
            by_cases hfull : n ^ d ≤ remaining g s
            · rw [hindex, Lib.nodes_full hB.pos hfull]
              exact hrest
            · rw [show remaining g s - n ^ d = 0 by omega]
              exact .zero count
          -- the later slots still hold what they held
          have hlater : ∀ i, i < count →
              t.dest.int (base + 4 + INT_SIZE * i) = kids (i + 1) := by
            intro i hi
            rw [← hkids (i + 1) (by omega), ← hslot]
            refine Buffer.int_congr fun x hlo hhi => ?_
            unfold INT_SIZE at hlo hhi
            exact h₁.frame x (by omega) (.inr (by omega))
          have hboth := ih ?_ h₁.sane (by omega) hlater hnext h
          · exact ⟨hgrow.trans hboth.1, hstay.trans hB hboth.2 hgrow hboth.1⟩
          · intro i hi u u' hu hleft' hbase' hkid hself hbelow' hbody'
            rw [hslot] at hkid ⊢
            refine hbody (i + 1) (by omega) u u' hu hleft'
              (by push_cast; omega) hkid hself hbelow' ?_
            rw [← hbody']
            congr 1
            omega

/-- What a loop below an index block does to a numbered row. -/
def StaysRow (g : Regions) (whole : Buffer) (n d : Nat)
    (loop : Int → State → Option State) : Prop :=
  ∀ (base : Int) (kids : Nat → Int) (s s' : State), Sane g whole.size s →
    base + 4 * n ≤ g.blockAt s.blockIndex →
    (∀ j, j < n → s.dest.int (base + INT_SIZE * j) = kids j) →
    NumberedRow g whole n d kids s.blockIndex n (remaining g s) →
    loop base s = some s' →
    s.blockIndex ≤ s'.blockIndex ∧ Stays g whole s s'

/-- An index block and the loop below it. -/
theorem slot_stays (hB : Bounds g whole.size n)
    {next : Int → State → Option State} (hnext : StaysRow g whole n d next)
    (hs : Sane g whole.size s) (hslot : slot + 4 ≤ g.blockAt s.blockIndex)
    (hself : s.dest.int slot = s.blockIndex)
    (hnum : Numbered g whole n (d + 1) s.blockIndex s.blockIndex
      (remaining g s)) {below : Int}
    (hcopy : copyIndex g whole s.blockIndex slot s = some (below, t))
    (h : next below t = some s') :
    s.blockIndex ≤ s'.blockIndex ∧ Stays g whole s s' := by
  have hints := hB.ints
  obtain ⟨hbelow, hw, -, hsize, -, -⟩ := copyIndex_spec hB hs hslot hcopy
  have hr : remaining g t = remaining g s := by
    unfold remaining
    rw [hsize]
  have hkids : ∀ j, j < n → t.dest.int (below + INT_SIZE * j)
      = child g whole s.blockIndex j := by
    intro j hj
    rw [hbelow, hw.slots hB j hj]
    unfold rawChild child
    rw [(hB.block_eq hs.index hs.room).1]
  have hrow : NumberedRow g whole n d (child g whole s.blockIndex)
      t.blockIndex n (remaining g t) := by
    rw [hr, hw.index]
    exact hnum
  obtain ⟨hgrow, hstay⟩ := hnext below _ t s' hw.sane
    (by rw [hw.index, blockAt_succ, hbelow, hints]) hkids hrow h
  have hindex := hw.index
  exact ⟨by omega, (copyIndex_stays hB hs hslot hself hcopy).trans hB hstay
    (by omega) hgrow⟩

theorem currBlock_stays (hB : Bounds g whole.size n) :
    ∀ d, StaysRow g whole n d (currBlock g whole d) := by
  intro d
  induction d with
  | zero =>
      intro base kids s s' hs hbase hkids hnum h
      unfold currBlock currBlockLv1 at h
      rw [hB.numInts] at h
      refine forSlots_stays hB (fun s _ => fileDone_iff s) ?_ hs hbase hkids
        hnum h
      intro i hi t t' ht hleft hroom hkid hself _ hbody
      rw [Nat.zero_add] at hbody
      have hslot : base + INT_SIZE * i + 4 ≤ g.blockAt t.blockIndex := by
        unfold INT_SIZE
        omega
      exact ⟨hkid ▸ copyData_spec hB ht hslot hleft hbody,
        copyData_stays hB ht hslot (hkid.trans hself) hleft hbody⟩
  | succ d ih =>
      intro base kids s s' hs hbase hkids hnum h
      unfold currBlock currBlockOver at h
      rw [hB.numInts] at h
      refine forSlots_stays hB (fun s hs => fileDoneOrFinished_iff hs) ?_ hs
        hbase hkids hnum h
      intro i hi t t' ht _ hroom hkid hself hbelow hbody
      have hslot : base + INT_SIZE * i + 4 ≤ g.blockAt t.blockIndex := by
        unfold INT_SIZE
        omega
      rw [Nat.zero_add] at hbody
      simp only [Option.bind_eq_bind, Option.bind_eq_some_iff,
        Prod.exists] at hbody
      obtain ⟨ptr, hload, below, u, hcopy, hnext⟩ := hbody
      have hptr : ptr = kids i := (Buffer.loadInt_eq_some hload).2.trans hkid
      rw [hptr] at hcopy
      refine ⟨slot_of_index hB (currBlock_copies hB d) ht hslot hcopy hnext, ?_⟩
      rw [hself] at hcopy hbelow
      exact (slot_stays hB ih ht hslot (hkid.trans hself) hbelow hcopy hnext).2

-- =============================================================== one file

/-- A row that is not needed is numbered from anywhere. -/
theorem NumberedRow.move {kids : Nat → Int} {start start' : Int}
    {count r : Nat} (h : NumberedRow g whole n d kids start count r)
    (heq : r ≠ 0 → start' = start) :
    NumberedRow g whole n d kids start' count r := by
  by_cases hr : r = 0
  · rw [hr]
    exact .zero count
  · rwa [heq hr]

/-- The slots of the row at `base`, as the source has them. -/
def rowKids (whole : Buffer) (base : Int) : Nat → Int :=
  fun j => whole.int (base + INT_SIZE * j)

theorem directBlocks_stays (hB : Bounds g whole.size n)
    (hs : Sane g whole.size s)
    (hroom : curr + dblocks + 4 * N_DBLOCKS ≤ g.blockAt s.blockIndex)
    (hsame : Buffer.SameOn whole s.dest (curr + dblocks) (4 * N_DBLOCKS))
    (hnum : NumberedRow g whole n 0 (rowKids whole (curr + dblocks))
      s.blockIndex N_DBLOCKS (remaining g s))
    (h : directBlocks g whole curr s = some s') : Stays g whole s s' := by
  refine (forSlots_stays hB (fun s _ => fileDone_iff s) ?_ hs hroom
    (slots_of_sameOn hsame) hnum h).2
  intro i hi t t' ht hleft hroom' hkid hself _ hbody
  rw [Nat.zero_add] at hbody
  have hslot : curr + dblocks + INT_SIZE * i + 4 ≤ g.blockAt t.blockIndex := by
    unfold INT_SIZE
    omega
  exact ⟨hkid ▸ copyData_spec hB ht hslot hleft hbody,
    copyData_stays hB ht hslot (hkid.trans hself) hleft hbody⟩

theorem lv1Blocks_stays (hB : Bounds g whole.size n)
    (hs : Sane g whole.size s)
    (hroom : curr + iblocks + 4 * N_IBLOCKS ≤ g.blockAt s.blockIndex)
    (hsame : Buffer.SameOn whole s.dest (curr + iblocks) (4 * N_IBLOCKS))
    (hnum : NumberedRow g whole n 1 (rowKids whole (curr + iblocks))
      s.blockIndex N_IBLOCKS (remaining g s))
    (h : lv1Blocks g whole curr s = some s') : Stays g whole s s' := by
  unfold lv1Blocks at h
  split at h
  case isTrue =>
    obtain rfl := Option.some.inj h
    exact .same rfl rfl
  case isFalse =>
    refine (forSlots_stays hB (fun s hs => fileDoneOrFinished_iff hs) ?_ hs
      hroom (slots_of_sameOn hsame) hnum h).2
    intro i hi t t' ht _ hroom' hkid hself hbelow hbody
    have hslot : curr + iblocks + INT_SIZE * i + 4
        ≤ g.blockAt t.blockIndex := by
      unfold INT_SIZE
      omega
    rw [Nat.zero_add] at hbody
    simp only [Option.bind_eq_bind, Option.bind_eq_some_iff,
      Prod.exists] at hbody
    obtain ⟨ptr, hload, below, u, hcopy, hnext⟩ := hbody
    have hptr : whole.int (curr + iblocks + INT_SIZE * i) = ptr :=
      (Buffer.loadInt_eq_some hload).2.symm
    rw [hptr] at hkid hself hbelow ⊢
    refine ⟨slot_of_index hB (currBlock_copies hB 0) ht hslot hcopy hnext, ?_⟩
    rw [hself] at hcopy hbelow
    exact (slot_stays hB (currBlock_stays hB 0) ht hslot (hkid.trans hself)
      hbelow hcopy hnext).2

theorem topBlock_stays (hB : Bounds g whole.size n)
    (hs : Sane g whole.size s) (hroom : base + 4 ≤ g.blockAt s.blockIndex)
    (hsame : s.dest.int base = whole.int base)
    (hself : ¬s.finished = true → whole.int base = s.blockIndex)
    (hnum : Numbered g whole n (d + 1) s.blockIndex s.blockIndex
      (remaining g s))
    (h : topBlock g whole (currBlock g whole d) base s = some s') :
    Stays g whole s s' := by
  unfold topBlock at h
  split at h
  case isTrue =>
    obtain rfl := Option.some.inj h
    exact .same rfl rfl
  case isFalse hfin =>
    simp only [Option.bind_eq_bind, Option.bind_eq_some_iff, Prod.exists] at h
    obtain ⟨ptr, hload, below, u, hcopy, hnext⟩ := h
    rw [(Buffer.loadInt_eq_some hload).2, hself hfin] at hcopy
    exact (slot_stays hB (currBlock_stays hB d) hs hroom
      (hsame.trans (hself hfin)) hnum hcopy hnext).2

/-- A row of one numbered slot, read at the number it is due. -/
theorem NumberedRow.top {start : Int} {r : Nat}
    (h : NumberedRow g whole n (d + 1) (rowKids whole base) start 1 r)
    {b : Int} (heq : r ≠ 0 → b = start) :
    (r ≠ 0 → whole.int base = b) ∧ Numbered g whole n (d + 1) b b r := by
  have hslot : rowKids whole base 0 = whole.int base := by simp [rowKids]
  by_cases hr : r = 0
  · subst hr
    exact ⟨fun hne => absurd rfl hne, .zero n⟩
  · obtain ⟨hfirst, hbelow, -⟩ := h.resolve_left hr
    rw [hslot] at hfirst hbelow
    rw [heq hr]
    exact ⟨fun _ => hfirst, hfirst ▸ hbelow⟩

/-- The file of the inode at `curr` is numbered from `start` on, its spare
block last. -/
structure NumberedFile (g : Regions) (whole : Buffer) (n : Nat)
    (curr start : Int) : Prop where
  rows : MirrorRoots (fun _ _ => True) (child g whole) (child g whole) n
    (Defrag.roots whole curr) (Defrag.roots whole curr) start
    (fileLength g whole curr)
  spare : ∀ o ∈ spareSlots n (fileLength g whole curr),
    whole.int (curr + o)
      = start + nodesRoots n (Defrag.roots whole curr)
          (fileLength g whole curr)

/-- A pointer of the record that the rows processed so far have not
touched. -/
theorem int_of_frame {s₀ : State} {o : Int}
    (hsame : Buffer.SameOn whole s₀.dest curr INODE_SIZE)
    (ho : 0 ≤ o) (ho' : o + 4 ≤ INODE_SIZE)
    (h : ∀ x, curr + o ≤ x → x < curr + o + 4 →
      s.dest.byte x = s₀.dest.byte x) :
    s.dest.int (curr + o) = whole.int (curr + o) := by
  refine Buffer.int_congr fun x hlo hhi => ?_
  rw [h x hlo hhi, hsame x (by omega) (by omega)]

theorem weigh_rows {fileSize : Int} (hB : Bounds g fileSize n)
    {count r : Nat} (h : count * n ^ d ≤ r) :
    weigh (nodes n d) (n ^ d) count r = count * full n d :=
  Lib.weigh_full (fun _ hr => Lib.nodes_full hB.pos hr) (Nat.pow_pos hB.pos) h

/-- The four groups of a numbered file, each behind full groups. -/
theorem NumberedFile.groups {start : Int}
    (h : NumberedFile g whole n curr start) :
    NumberedRow g whole n 0 (rowKids whole (curr + dblocks)) start N_DBLOCKS
        (fileLength g whole curr)
      ∧ NumberedRow g whole n 1 (rowKids whole (curr + iblocks))
          (start + (N_DBLOCKS * full n 0 : Nat)) N_IBLOCKS
          (fileLength g whole curr - N_DBLOCKS * n ^ 0)
      ∧ NumberedRow g whole n 2 (rowKids whole (curr + i2block))
          (start + (N_DBLOCKS * full n 0 : Nat) + (N_IBLOCKS * full n 1 : Nat))
          1 (fileLength g whole curr - N_DBLOCKS * n ^ 0 - N_IBLOCKS * n ^ 1)
      ∧ NumberedRow g whole n 3 (rowKids whole (curr + i3block))
          (start + (N_DBLOCKS * full n 0 : Nat) + (N_IBLOCKS * full n 1 : Nat)
            + (1 * full n 2 : Nat)) 1
          (fileLength g whole curr - N_DBLOCKS * n ^ 0 - N_IBLOCKS * n ^ 1
            - 1 * n ^ 2) := by
  obtain ⟨⟨-, hdirect, -, hlv1, -, hlv2, -, hlv3, -⟩, -⟩ := h
  exact ⟨hdirect, hlv1, hlv2, hlv3⟩

/-- A group that is needed starts where the full groups before it end. -/
theorem LowPhases.start_full {s₀ s₁ s₂ : State} (hB : Bounds g whole.size n)
    (h : LowPhases g whole n curr s₀ s₁ s₂) :
    (remaining g s₁ ≠ 0 → s₁.blockIndex
        = s₀.blockIndex + (N_DBLOCKS * full n 0 : Nat))
      ∧ (remaining g s₂ ≠ 0 → s₂.blockIndex = s₀.blockIndex
        + (N_DBLOCKS * full n 0 : Nat) + (N_IBLOCKS * full n 1 : Nat)) := by
  have r₁ := h.direct.remaining
  have r₂ := h.lv1.remaining
  have i₁ := h.direct.index
  have i₂ := h.lv1.index
  rw [h.length] at r₁ i₁
  rw [r₁] at i₂ r₂
  have j₁ (hr : remaining g s₁ ≠ 0) : s₁.blockIndex
      = s₀.blockIndex + (N_DBLOCKS * full n 0 : Nat) := by
    rw [i₁, weigh_rows hB (by omega)]
  refine ⟨j₁, fun hr => ?_⟩
  rw [i₂, j₁ (by omega), weigh_rows hB (by omega)]

/-- The direct and single indirect pointers of a numbered file stay. -/
theorem LowPhases.stays {s₀ s₁ s₂ : State} (hB : Bounds g whole.size n)
    (h : LowPhases g whole n curr s₀ s₁ s₂)
    (hsame : Buffer.SameOn whole s₀.dest curr INODE_SIZE)
    (hnum : NumberedFile g whole n curr s₀.blockIndex)
    (h₁ : directBlocks g whole curr s₀ = some s₁)
    (h₂ : lv1Blocks g whole curr s₁ = some s₂) : Stays g whole s₀ s₂ := by
  obtain ⟨hdirect, hlv1, -, -⟩ := hnum.groups
  obtain ⟨j₁, -⟩ := h.start_full hB
  have hbelow := h.room
  simp only [INODE_SIZE] at hbelow
  have i₁ := h.direct.index
  have i₂ := h.lv1.index
  have m₁ := hB.blockAt_mono (show s₀.blockIndex ≤ s₁.blockIndex by omega)
  have hstay₁ : Stays g whole s₀ s₁ := by
    refine directBlocks_stays hB h.sane
      (by simp only [dblocks, N_DBLOCKS]; omega)
      (hsame.mono (by simp only [dblocks]; omega)
        (by simp only [dblocks, N_DBLOCKS, INODE_SIZE]; omega)) ?_ h₁
    rw [h.length]
    exact hdirect
  have hstay₂ : Stays g whole s₁ s₂ := by
    refine lv1Blocks_stays hB h.direct.sane
      (by simp only [iblocks, N_IBLOCKS]; omega)
      (iblocks_same h.direct h.room hsame) ?_ h₂
    rw [← h.length, ← h.direct.remaining] at hlv1
    exact hlv1.move j₁
  exact hstay₁.trans hB hstay₂ (by omega) (by omega)

/-- The double indirect pointer has not been touched when its turn comes. -/
theorem LowPhases.i2block_same {s₀ s₁ s₂ : State}
    (hB : Bounds g whole.size n) (h : LowPhases g whole n curr s₀ s₁ s₂)
    (hsame : Buffer.SameOn whole s₀.dest curr INODE_SIZE) :
    s₂.dest.int (curr + i2block) = whole.int (curr + i2block) := by
  have hbelow := h.room
  have i₁ := h.direct.index
  have m₁ := hB.blockAt_mono (show s₀.blockIndex ≤ s₁.blockIndex by omega)
  simp only [INODE_SIZE] at hbelow
  refine int_of_frame hsame (by decide) (by decide) fun x hlo hhi => ?_
  simp only [i2block] at hlo hhi
  rw [h.lv1.frame x (by omega) (.inr (by simp only [iblocks, N_IBLOCKS]; omega)),
    h.direct.frame x (by omega)
      (.inr (by simp only [dblocks, N_DBLOCKS]; omega))]

/-- Nor has the triple indirect one. -/
theorem LowPhases.i3block_same {s₀ s₁ s₂ s₃ : State}
    (hB : Bounds g whole.size n) (h : LowPhases g whole n curr s₀ s₁ s₂)
    (h₃ : TopPost g whole n 1 (curr + i2block) s₂ s₃)
    (hsame : Buffer.SameOn whole s₀.dest curr INODE_SIZE) :
    s₃.dest.int (curr + i3block) = whole.int (curr + i3block) := by
  have hbelow := h.room
  have hbelow₂ := h.room_low hB
  have i₁ := h.direct.index
  have m₁ := hB.blockAt_mono (show s₀.blockIndex ≤ s₁.blockIndex by omega)
  simp only [INODE_SIZE] at hbelow hbelow₂
  refine int_of_frame hsame (by decide) (by decide) fun x hlo hhi => ?_
  simp only [i3block] at hlo hhi
  rw [(h₃.root hB h.lv1.sane).frame x (by omega)
      (.inr (by simp only [i2block]; omega)),
    h.lv1.frame x (by omega) (.inr (by simp only [iblocks, N_IBLOCKS]; omega)),
    h.direct.frame x (by omega)
      (.inr (by simp only [dblocks, N_DBLOCKS]; omega))]

/-- The double indirect block of a numbered file stays, needed or spare. -/
theorem FilePhases.stays_lv2 {s₀ s₁ s₂ s₃ : State}
    (hB : Bounds g whole.size n)
    (h : FilePhases g whole n curr s₀ s₁ s₂ s₃ s')
    (hsame : Buffer.SameOn whole s₀.dest curr INODE_SIZE)
    (hnum : NumberedFile g whole n curr s₀.blockIndex)
    (h₃ : lv2Block g whole curr s₂ = some s₃) : Stays g whole s₂ s₃ := by
  obtain ⟨-, -, hlv2, -⟩ := hnum.groups
  obtain ⟨-, j₂⟩ := h.start_full hB
  have hbelow := h.room_low hB
  simp only [INODE_SIZE] at hbelow
  rw [← h.start_lv2.2] at hlv2
  obtain ⟨hself, htree⟩ := hlv2.top j₂
  refine topBlock_stays hB h.lv1.sane (by simp only [i2block]; omega)
    (h.i2block_same hB hsame) ?_ htree h₃
  intro hfin
  by_cases hr : remaining g s₂ = 0
  · obtain ⟨hone, -, hindex⟩ := h.spare_lv2 hB hfin hr
    rw [hindex]
    exact hnum.spare _ (by rw [hone]; exact List.mem_cons_self)
  · exact hself hr

/-- So does the triple indirect one. -/
theorem FilePhases.stays_lv3 {s₀ s₁ s₂ s₃ : State}
    (hB : Bounds g whole.size n)
    (h : FilePhases g whole n curr s₀ s₁ s₂ s₃ s')
    (hsame : Buffer.SameOn whole s₀.dest curr INODE_SIZE)
    (hnum : NumberedFile g whole n curr s₀.blockIndex)
    (h₄ : lv3Block g whole curr s₃ = some s') : Stays g whole s₃ s' := by
  obtain ⟨-, -, -, hlv3⟩ := hnum.groups
  obtain ⟨-, j₂⟩ := h.start_full hB
  have hroot := h.lv2.root hB h.lv1.sane
  have hbelow := h.room_low hB
  have g₃ := hroot.index
  have m₃ := hB.blockAt_mono (show s₂.blockIndex ≤ s₃.blockIndex by omega)
  simp only [INODE_SIZE] at hbelow
  have r₃ : remaining g s₃ = fileLength g whole curr - N_DBLOCKS * n ^ 0
      - N_IBLOCKS * n ^ 1 - 1 * n ^ 2 := by
    rw [h.lv2.remaining hB h.lv1.sane, h.start_lv2.2, Nat.one_mul]
  have j₃ (hr : remaining g s₃ ≠ 0) : s₃.blockIndex = s₀.blockIndex
      + (N_DBLOCKS * full n 0 : Nat) + (N_IBLOCKS * full n 1 : Nat)
      + (1 * full n 2 : Nat) := by
    have r₂ := h.start_lv2.2
    have i₃ := h.lv2.index hB h.lv1.sane
    simp only [Nat.reduceAdd] at i₃
    rw [i₃, j₂ (by omega), if_pos (.inr (by omega)), weigh_rows hB (by omega)]
    omega
  rw [← r₃] at hlv3
  obtain ⟨hself, htree⟩ := hlv3.top j₃
  refine topBlock_stays hB hroot.sane (by simp only [i3block]; omega)
    (h.i3block_same hB h.lv2 hsame) ?_ htree h₄
  intro hfin
  by_cases hr : remaining g s₃ = 0
  · obtain ⟨hone, hindex⟩ := h.spare_lv3 hB hfin hr
    rw [hindex]
    exact hnum.spare _ (by rw [hone]; exact List.mem_cons_self)
  · exact hself hr

/-- A numbered file is copied onto its own place. -/
theorem copyFile_stays (hB : Bounds g whole.size n)
    (hs : Sane g whole.size s)
    (hroom : curr + INODE_SIZE ≤ g.blockAt s.blockIndex)
    (hsame : Buffer.SameOn whole s.dest curr INODE_SIZE)
    (hnum : NumberedFile g whole n curr s.blockIndex)
    (h : copyFile g whole curr s = some s') : Stays g whole s s' := by
  obtain ⟨s₀, s₁, s₂, s₃, ⟨hd, hb, -⟩, hp, h₁, h₂, h₃, h₄, -⟩ :=
    copyFile_phases hB hs hroom hsame h
  rw [← hb] at hnum
  rw [← hd] at hsame
  have hs₂ := hp.lv1.sane
  have hroot := hp.lv2.root hB hs₂
  have i₁ := hp.direct.index
  have i₂ := hp.lv1.index
  have i₃ := hroot.index
  have i₄ := (hp.lv3.root hB hroot.sane).index
  have hlow := hp.toLowPhases.stays hB hsame hnum h₁ h₂
  have hlv2 := hp.stays_lv2 hB hsame hnum h₃
  have hlv3 := hp.stays_lv3 hB hsame hnum h₄
  have hhigh : Stays g whole s₂ s' := hlv2.trans hB hlv3 (by omega) (by omega)
  have hfile : Stays g whole s₀ s' := hlow.trans hB hhigh (by omega) (by omega)
  exact (Stays.same hd hb).trans hB hfile (by omega) (by omega)

-- =============================================================== the loop

/-- Every live file is numbered from where the outmost loop puts it. -/
def AllNumbered (g : Regions) (whole : Buffer) (n : Nat) : Prop :=
  ∀ i < g.numInode.toNat, Live whole (g.inode i) →
    NumberedFile g whole n (g.inode i) (takenBefore g whole n i)

/-- The outmost loop is about to look at inode `i₀` of a numbered image:
the destination holds the source up to there and in every taken block, and
zeros elsewhere. -/
def Restored (g : Regions) (whole : Buffer) (i₀ : Nat) (s : State) : Prop :=
  ∀ x, 0 ≤ x → s.dest.byte x
    = if x < g.inode i₀ ∨ (g.dataBegin ≤ x ∧ x < g.blockAt s.blockIndex)
      then whole.byte x else 0

theorem Opening.restored (hB : Bounds g whole.size n)
    (h : Opening g whole s) : Restored g whole 0 s := by
  have hdata := hB.data
  have hrec := hB.records
  have hnum := hB.inodes
  have hzero : g.blockAt 0 = g.dataBegin := by simp [Regions.blockAt]
  have hfirst : g.inode 0 = g.inodeBegin := by simp [Regions.inode]
  intro x hx
  rw [h.index, hzero, hfirst]
  by_cases hlt : x < g.inodeBegin
  · rw [if_pos (.inl hlt)]
    exact h.before x hx (by omega)
  · rw [if_neg (by omega)]
    exact h.zero x (by omega)

/-- One more inode. -/
theorem Restored.step (hB : Bounds g whole.size n) {i : Nat}
    (hi : i < g.numInode.toNat) (hs : Sane g whole.size s)
    (h : Restored g whole i s)
    (hnum : Live whole (g.inode i) →
      NumberedFile g whole n (g.inode i) s.blockIndex)
    (ht : copyInode g whole i s = some s') :
    Restored g whole (i + 1) s' := by
  have hrange := hB.inode_range hi
  have hdata := hB.data_le hs.index
  have hgrows := hB.blockAt_mono (copyInode_spec hB hs hi ht).grows
  have hnext : g.inode (i + 1) = g.inode i + INODE_SIZE := by
    unfold Regions.inode
    push_cast
    ring
  have h100 : INODE_SIZE = 100 := rfl
  obtain ⟨t, -, hsane, hindex, -, hsame, hout, hfile⟩ :=
    copyInode_cases hs ht
  have hstay : Stays g whole t s' := by
    split at hfile
    case isFalse => exact .same (by rw [hfile]) (by rw [hfile])
    case isTrue hlive =>
      exact copyFile_stays hB hsane (by rw [hindex]; omega) hsame
        (by rw [hindex]; exact hnum hlive) hfile
  intro x hx
  rw [hstay x, hindex, hnext]
  by_cases hblock : g.blockAt s.blockIndex ≤ x ∧ x < g.blockAt s'.blockIndex
  · rw [if_pos hblock, if_pos (.inr (by omega))]
  rw [if_neg hblock]
  by_cases hrec : g.inode i ≤ x ∧ x < g.inode i + INODE_SIZE
  · rw [if_pos (.inl (by omega))]
    exact hsame x hrec.1 hrec.2
  · rw [hout x (by omega), h x hx]
    by_cases hold : x < g.inode i
        ∨ (g.dataBegin ≤ x ∧ x < g.blockAt s.blockIndex)
    · rw [if_pos hold, if_pos (by omega)]
    · rw [if_neg hold, if_neg (by omega)]

/-- The inode loop over a numbered image. -/
theorem inodeLoop_restored (hB : Bounds g whole.size n)
    (hnum : AllNumbered g whole n) (h : inodeLoop g whole = some s) :
    Restored g whole g.numInode.toNat s := by
  obtain ⟨s₀, hopen, hrun⟩ := inodeLoop_eq hB
  rw [hrun] at h
  refine (inodesFrom_invariant (P := fun i t =>
    Counted g whole n i t ∧ Restored g whole i t) ?_
    ⟨hopen.counted, hopen.restored hB⟩ (Nat.zero_add _) h).2
  intro i t t' hi ⟨hc, hr⟩ ht
  refine ⟨hc.step hB hi ht, hr.step hB hi hc.progress.sane (fun hlive => ?_) ht⟩
  rw [hc.index]
  exact hnum i hi hlive

end OperatingSystem.Defrag
