/-
What `Mem_Alloc` leaves of a well-formed heap.

# The block it is after

It is the cached largest block where both cached pointers are set and in
order, and else the first of the largest FREE blocks (`Sought`): the scan
goes through the free list, which is all of them, and changes its mind only
for a larger block (`Leading`). The search also finds the FREE block in front
of it, by a walk back or by the scan's memory, and on a well-formed heap the
two agree.

# Where this goes wrong

- The cached largest block need not be FREE.
- A block that is taken whole is unlinked only if it is the first FREE one.
  Otherwise the one in front keeps leading to it, and as its own `next_free`
  becomes `NULL` the rest of the list is lost.
- `round_to` computes in `int`: a request that it makes less than eight bytes
  puts the new header inside the one it belongs behind.
-/
import OperatingSystem.Heap.Growing
import OperatingSystem.Heap.Tracked
import OperatingSystem.Heap.WellFormed

namespace OperatingSystem.Heap

open Lib (Words i32 i64 firstListed lastListed relink NoneListed Unbroken)

variable {s s' s₁ s₂ : State} {A A' B B' D L L' : List Block} {t t' : Block}
  {c c' : Choice} {fuel : Nat} {p n size : Int}

-- ============================================================= the outcome

/-- A block `t` in front of `B` is cut when it is handed out for `size`
bytes. -/
def Cuts (last : Int) (t : Block) (B : List Block) (size : Int) : Prop :=
  if B = [] then size + BLOCK_SIZE ≤ i32 (blockSize last t B)
  else BLOCK_HEADER + size + BLOCK_SIZE ≤ i32 (blockSize last t B)

instance (last : Int) (t : Block) (B : List Block) (size : Int) :
    Decidable (Cuts last t B size) := by
  unfold Cuts
  infer_instance

/-- Where the remainder of `t` is, if there is one. -/
def remainder (last : Int) (t : Block) (B : List Block) (size : Int) :
    List Int :=
  if Cuts last t B size then [t.addr + BLOCK_HEADER + size] else []

/-- `p` is the payload of a block that was FREE and is ALLOCATED. The heap is
well formed, and its FREE blocks are those of before but for this one, and
its remainder if it was cut. -/
def TakenOff (s s' : State) (L : List Block) (p size : Int) : Prop :=
  ∃ A t B L', L = A ++ t :: B ∧ t.listed = true ∧ p = t.addr + BLOCK_HEADER
    ∧ WellFormed s' L' ∧ (t.addr, false) ∈ shapes L'
    ∧ frees L' = frees A ++ remainder s.lastBlockSize t B size ++ frees B

/-- The block that `Mem_Alloc` is after. -/
def Sought (s : State) (A : List Block) (t : Block) (B : List Block) : Prop :=
  (∃ k, FastPath s k) ∧ s.largest = t.addr
    ∨ (¬∃ k, FastPath s k) ∧ t.listed = true
      ∧ (∀ q ∈ spans s.lastBlockSize (some t.addr) (shapes A),
        q.free = true → i32 q.size < i32 (blockSize s.lastBlockSize t B))
      ∧ ∀ q ∈ spans s.lastBlockSize none (shapes B),
        q.free = true → i32 q.size ≤ i32 (blockSize s.lastBlockSize t B)

/-- The block that `Mem_Alloc` is after for `size` bytes, a rounded size, is
FREE. If it is cut then for a positive size, and if it is not then no FREE
block is in front of it. -/
def Unlinks (s : State) (L : List Block) (size : Int) : Prop :=
  ∀ A t B, L = A ++ t :: B → Sought s A t B →
    t.listed = true ∧ if Cuts s.lastBlockSize t B size then BLOCK_SIZE ≤ size
      else NoneListed A

/-- A block in front of `t'` has the size it has in the whole chain. -/
theorem span_front (last : Int) (A : List Block) (t : Block) (D : List Block)
    (t' : Block) (B : List Block) :
    (⟨t.addr, t.listed, blockSize last t (D ++ t' :: B)⟩ : Span)
      ∈ spans last (some t'.addr) (shapes (A ++ t :: D)) := by
  rw [shapes_append, shapes_cons, spans_append, List.mem_append, spans,
    List.mem_cons, blockSize_eq_gap, shapes_append, nextAddr_append]
  exact .inr (.inl rfl)

/-- The first of the largest comes first. -/
theorem Sought.not_behind {D : List Block}
    (hbehind : ∀ q ∈ spans s.lastBlockSize none (shapes (D ++ t' :: B)),
      q.free = true →
      i32 q.size ≤ i32 (blockSize s.lastBlockSize t (D ++ t' :: B)))
    (hfront : ∀ q ∈ spans s.lastBlockSize (some t'.addr) (shapes (A ++ t :: D)),
      q.free = true → i32 q.size < i32 (blockSize s.lastBlockSize t' B))
    (ht : t.listed = true) (ht' : t'.listed = true) : False := by
  have hlt := hfront _ (span_front s.lastBlockSize A t D t' B) ht
  have hle := hbehind _ (span_iff.mpr ⟨D, t', B, rfl, rfl⟩) ht'
  dsimp only at hlt hle
  omega

/-- There is one such block. -/
theorem Sought.unique (h : Sought s A t B) (h' : Sought s A' t' B')
    (hc : Chain s.mem (A ++ t :: B)) (heq : A ++ t :: B = A' ++ t' :: B') :
    A = A' ∧ t = t' ∧ B = B' := by
  rcases h with ⟨hfast, haddr⟩ | ⟨hslow, ht, hfront, hbehind⟩
  · rcases h' with ⟨-, haddr'⟩ | ⟨hslow', -⟩
    · exact hc.split_unique heq (haddr.symm.trans haddr')
    · exact absurd hfast hslow'
  · rcases h' with ⟨hfast', -⟩ | ⟨-, ht', hfront', hbehind'⟩
    · exact absurd hfast' hslow
    · rcases split_cases heq with hsame | ⟨D, rfl, rfl⟩ | ⟨D, rfl, rfl⟩
      · exact hsame
      · exact (Sought.not_behind hbehind hfront' ht ht').elim
      · exact (Sought.not_behind hbehind' hfront ht' ht).elim

-- ============================================================== the search

/-- What the scan knows once it has been past the blocks `seen`. -/
def Leading (s : State) (L : List Block) (size : Int) (seen : List Span)
    (c : Choice) : Prop :=
  c.sizeToAllocate = -1
      ∧ (∀ q ∈ seen, q.free = true → i32 q.size ≤ size ∨ i32 q.size ≤ -1)
    ∨ ∃ A t B, L = A ++ t :: B ∧ Chosen s c A t B
      ∧ size < c.sizeToAllocate ∧ -1 < c.sizeToAllocate
      ∧ (∀ q ∈ spans s.lastBlockSize (some t.addr) (shapes A),
        q.free = true → i32 q.size < c.sizeToAllocate)
      ∧ ∀ q ∈ seen, q.free = true → i32 q.size ≤ c.sizeToAllocate

/-- Blocks that are not FREE do not matter. -/
theorem Leading.mono {seen seen' : List Span} (h : Leading s L size seen c)
    (hsub : ∀ q ∈ seen', q.free = true → q ∈ seen) :
    Leading s L size seen' c := by
  rcases h with ⟨hnone, hsmall⟩ | ⟨A, t, B, hL, hc, hgt, hpos, hfront, hmax⟩
  · exact .inl ⟨hnone, fun q hq hfree => hsmall q (hsub q hq hfree) hfree⟩
  · exact .inr ⟨A, t, B, hL, hc, hgt, hpos, hfront,
      fun q hq hfree => hmax q (hsub q hq hfree) hfree⟩

/-- The cached pointers do not matter either. -/
theorem Leading.ranked {seen : List Span} (h : Leading s L size seen c)
    (hsize : c'.sizeToAllocate = c.sizeToAllocate)
    (hprev : c'.prevFree = c.prevFree)
    (hblock : c'.nextToAllocate = c.nextToAllocate) :
    Leading s L size seen c' := by
  unfold Leading
  rw [hsize]
  refine h.imp_right fun hsome => ?_
  obtain ⟨A, t, B, hL, hc, hrest⟩ := hsome
  exact ⟨A, t, B, hL, ⟨hc.free, hblock.trans hc.block, hprev.trans hc.prev,
    hsize.trans hc.size⟩, hrest⟩

/-- One iteration, at a FREE block behind the blocks `seen`. -/
theorem Leading.step {seen : List Span} (h : Leading s L size seen c)
    (hL : L = A ++ t :: B) (ht : t.listed = true)
    (hseen : ∀ q ∈ spans s.lastBlockSize (some t.addr) (shapes A),
      q.free = true → q ∈ seen) :
    Leading s L size
      (⟨t.addr, true, blockSize s.lastBlockSize t B⟩ :: seen)
      (if i32 (blockSize s.lastBlockSize t B) > size
          ∧ i32 (blockSize s.lastBlockSize t B) > c.sizeToAllocate then
        { c with
          sizeToAllocate := i32 (blockSize s.lastBlockSize t B)
          prevFree := lastListed NULL A
          nextToAllocate := t.addr }
      else c) := by
  split
  case isTrue hbest =>
    obtain ⟨hgt, hmore⟩ := hbest
    refine .inr ⟨A, t, B, hL, ⟨ht, rfl, rfl, rfl⟩, hgt, ?_, ?_, ?_⟩
    · dsimp only
      rcases h with ⟨hnone, -⟩ | ⟨_, _, _, _, _, _, hpos, -⟩
      · omega
      · omega
    · intro q hq hfree
      dsimp only
      rcases h with ⟨hnone, hsmall⟩ | ⟨_, _, _, _, _, _, hpos, _, hmax⟩
      · have := hsmall q (hseen q hq hfree) hfree
        omega
      · have := hmax q (hseen q hq hfree) hfree
        omega
    · intro q hq hfree
      dsimp only
      rcases List.mem_cons.mp hq with rfl | hq
      · exact Int.le_refl _
      · rcases h with ⟨hnone, hsmall⟩ | ⟨_, _, _, _, _, _, hpos, _, hmax⟩
        · have := hsmall q hq hfree
          omega
        · have := hmax q hq hfree
          omega
  case isFalse hnot =>
    rcases h with ⟨hnone, hsmall⟩ | ⟨A', t', B', hL', hc, hgt, hpos, hfront,
      hmax⟩
    · refine .inl ⟨hnone, fun q hq hfree => ?_⟩
      rcases List.mem_cons.mp hq with rfl | hq
      · dsimp only
        omega
      · exact hsmall q hq hfree
    · refine .inr ⟨A', t', B', hL', hc, hgt, hpos, hfront, fun q hq hfree => ?_⟩
      rcases List.mem_cons.mp hq with rfl | hq
      · dsimp only
        omega
      · exact hmax q hq hfree

/-- The scan of a well-formed heap. -/
theorem WellFormed.scan (h : WellFormed s L) : ∀ (fuel : Nat) (c c' : Choice)
    (A R : List Block), L = A ++ R →
    Leading s L size
      (spans s.lastBlockSize (nextAddr none (shapes R)) (shapes A)) c →
    Heap.scan s size fuel (firstListed NULL R) (lastListed NULL A) c
      = some c' →
    Leading s L size (spans s.lastBlockSize none (shapes L)) c' := by
  intro fuel
  induction fuel with
  | zero => intro c c' A R _ _ hrun; cases hrun
  | succ fuel ih =>
      intro c c' A R hL hlead hrun
      rw [Heap.scan] at hrun
      rcases Lib.exists_first R with hnone | ⟨D, t, E, rfl, ht, hD⟩
      · rw [Lib.firstListed_none hnone, if_pos rfl] at hrun
        obtain rfl := Option.some.inj hrun
        refine hlead.mono fun q hq hfree => ?_
        rw [hL, shapes_append, spans_append, List.mem_append] at hq
        refine hq.resolve_right fun hR => ?_
        rw [not_free_of_none hnone hR] at hfree
        cases hfree
      · have hL' : L = (A ++ D) ++ t :: E := by rw [hL, List.append_assoc]
        have hchain := h.chain
        have hunbroken := h.unbroken
        rw [hL'] at hchain hunbroken
        obtain ⟨-, hlink, -⟩ := Lib.unbroken_append.mp hunbroken
        rw [if_pos ht] at hlink
        rw [Lib.firstListed_split ht hD, if_neg hchain.mem.ne_null,
          getBlockSize_eq hchain, Option.bind_eq_bind,
          Option.bind_some] at hrun
        obtain ⟨c₁, hrank, hrun⟩ := Option.bind_eq_some_iff.mp hrun
        rw [State.nextFree_eq hchain.mem, Option.bind_some, hlink] at hrun
        obtain ⟨hsize, hprev, hblock, -⟩ := rank_eq hrank
        have htemp : lastListed NULL A = lastListed NULL (A ++ D) := by
          rw [Lib.lastListed_append, Lib.lastListed_none hD]
        have hhere : lastListed NULL (A ++ D ++ [t]) = t.addr :=
          Lib.lastListed_split _ ht fun _ hb => absurd hb List.not_mem_nil
        -- blocks in front of `t` are in `A` or not FREE
        have hseen : ∀ q ∈ spans s.lastBlockSize (some t.addr)
            (shapes (A ++ D)), q.free = true →
            q ∈ spans s.lastBlockSize (nextAddr none (shapes (D ++ t :: E)))
              (shapes A) := by
          intro q hq hfree
          rw [shapes_append, spans_append, List.mem_append] at hq
          rcases hq with hq | hq
          · rw [shapes_append, nextAddr_append, shapes_cons]
            exact hq
          · rw [not_free_of_none hD hq] at hfree
            cases hfree
        have hstep := (hlead.ranked hsize hprev hblock).step hL' ht hseen
        refine ih _ c' (A ++ D ++ [t]) E (by rw [hL']; simp)
          (hstep.mono fun q hq hfree => ?_) ?_
        · rw [shapes_append, spans_append, List.mem_append] at hq
          rcases hq with hq | hq
          · exact List.mem_cons_of_mem _ (hseen q hq hfree)
          · rw [shapes_cons] at hq
            obtain rfl := List.mem_singleton.mp hq
            rw [blockSize_eq_gap]
            dsimp only at hfree
            rw [hfree]
            exact List.mem_cons_self
        · rw [hhere, ← htemp]
          exact hrun

/-- A whole scan. -/
theorem WellFormed.fullScan (h : WellFormed s L) {l m : Int}
    (hrun : Heap.scan s size fuel s.headFree NULL (unchosen l m) = some c) :
    Leading s L size (spans s.lastBlockSize none (shapes L)) c := by
  rw [h.headFree] at hrun
  exact h.scan fuel _ c [] L rfl (.inl ⟨rfl, nofun⟩) hrun

theorem Leading.sought
    (h : Leading s L size (spans s.lastBlockSize none (shapes L)) c)
    (hslow : ¬∃ k, FastPath s k) (hsome : c.sizeToAllocate ≠ -1) :
    ∃ A t B, L = A ++ t :: B ∧ Sought s A t B ∧ Chosen s c A t B
      ∧ size < c.sizeToAllocate ∧ -1 < c.sizeToAllocate := by
  rcases h with ⟨hnone, -⟩ | ⟨A, t, B, rfl, hc, hgt, hpos, hfront, hmax⟩
  · exact absurd hnone hsome
  · refine ⟨A, t, B, rfl, .inr ⟨hslow, hc.free, ?_, ?_⟩, hc, hgt, hpos⟩
    · rw [← hc.size]
      exact hfront
    · intro q hq hfree
      rw [← hc.size]
      refine hmax q ?_ hfree
      rw [shapes_append, shapes_cons, mem_spans]
      exact .inr (.inr hq)

/-- The search ends at the block that `Mem_Alloc` is after. -/
theorem WellFormed.search (h : WellFormed s L) (hl : Leads L s.largest)
    (hrun : Heap.search s fuel size = some c) (hsome : c.sizeToAllocate ≠ -1) :
    ∃ A t B, L = A ++ t :: B ∧ Sought s A t B ∧ c.nextToAllocate = t.addr
      ∧ (t.listed = true → Chosen s c A t B) := by
  unfold Heap.search at hrun
  have hscan : ∀ l m, (¬∃ k, FastPath s k) →
      Heap.scan s size fuel s.headFree NULL (unchosen l m) = some c →
      ∃ A t B, L = A ++ t :: B ∧ Sought s A t B ∧ c.nextToAllocate = t.addr
        ∧ (t.listed = true → Chosen s c A t B) := by
    intro l m hslow hrun
    obtain ⟨A, t, B, hL, ht, hc, -⟩ := (h.fullScan hrun).sought hslow hsome
    exact ⟨A, t, B, hL, ht, hc.block, fun _ => hc⟩
  split at hrun
  case isTrue hboth =>
    simp only [Option.bind_eq_bind, Option.bind_eq_some_iff] at hrun
    obtain ⟨sizeOfLargest, hsize, sizeOfSecond, hsecond, hrun⟩ := hrun
    split at hrun
    case isTrue hge =>
      simp only [Option.bind_eq_some_iff] at hrun
      obtain ⟨prev, hprev, prevFree, hwalk, hrun⟩ := hrun
      obtain rfl := Option.some.inj hrun
      obtain ⟨A, t, B, rfl, haddr⟩ := hl.ne_null hboth.1
      have hfast : FastPath s sizeOfLargest :=
        ⟨hboth.1, hboth.2, hsize, sizeOfSecond, hsecond, hge⟩
      rw [haddr, State.prev_eq h.chain] at hprev
      obtain rfl := Option.some.inj hprev
      rw [haddr, getBlockSize_eq h.chain] at hsize
      obtain rfl := Option.some.inj hsize
      refine ⟨A, t, B, rfl, .inl ⟨⟨_, hfast⟩, haddr⟩, haddr,
        fun ht => ⟨ht, haddr, ?_, rfl⟩⟩
      rcases nearestFree_eq fuel h.chain with hfound | ⟨hnone, -⟩
      · rw [hfound] at hwalk
        exact (Option.some.inj hwalk).symm
      · rw [hnone] at hwalk
        cases hwalk
    case isFalse hlt =>
      refine hscan _ _ (fun hfast => hlt ?_) hrun
      obtain ⟨k, -, -, hk, k', hk', hge⟩ := hfast
      obtain rfl := Option.some.inj (hk.symm.trans hsize)
      obtain rfl := Option.some.inj (hk'.symm.trans hsecond)
      exact hge
  case isFalse hnot =>
    refine hscan _ _ (fun hfast => hnot ?_) hrun
    obtain ⟨k, hl, hm, -⟩ := hfast
    exact ⟨hl, hm⟩

-- ======================================================= the chosen block

/-- A call that hands a block out has searched and chosen. -/
theorem memAlloc_takes (hrun : memAlloc fuel s size = some (p, s'))
    (hp : p ≠ NULL) :
    ∃ c, search s fuel (roundTo size BLOCK_SIZE) = some c
      ∧ c.sizeToAllocate ≠ -1
      ∧ takeBlock s c size (roundTo size BLOCK_SIZE) = some (p, s') := by
  obtain ⟨c, hsearch, hsome, -⟩ := memAlloc_chosen hrun hp
  refine ⟨c, hsearch, hsome, ?_⟩
  unfold memAlloc at hrun
  split at hrun
  case isTrue => cases hrun
  case isFalse =>
    split at hrun
    case isTrue =>
      exact absurd (Prod.mk.inj (Option.some.inj hrun)).1.symm hp
    case isFalse =>
      rw [hsearch] at hrun
      exact hrun

/-- The code's test is the one on the size of the block. -/
theorem Chosen.splits_iff (hc : Chosen s c A t B)
    (h : Chain s.mem (A ++ t :: B)) :
    splits (firstAddr B) c size ↔ Cuts s.lastBlockSize t B size := by
  unfold splits Cuts
  rw [hc.size]
  cases B with
  | nil => exact Iff.rfl
  | cons b rest =>
      have hb : Holds s.mem b := h.holds b (by simp)
      rw [firstAddr_cons, if_pos hb.ne_null, if_neg (List.cons_ne_nil b rest)]

/-- A block that is cut has room for its remainder's header. -/
theorem Cuts.room {m : Words} {last : Int} (hcuts : Cuts last t B size)
    (h : Chain m (A ++ t :: B)) :
    ∀ b ∈ B, t.addr + BLOCK_HEADER + size + 40 ≤ b.addr := by
  apply h.forall_behind
  intro b hb
  cases B with
  | nil => cases hb
  | cons d rest =>
      obtain rfl := Option.some.inj hb
      have hbehind := h.behind d List.mem_cons_self
      have hle := Lib.i32_le (n := d.addr - (t.addr + 32)) (by omega)
      rw [Cuts, if_neg (List.cons_ne_nil d rest), blockSize] at hcuts
      unfold BLOCK_HEADER BLOCK_SIZE at *
      omega

-- ==================================================== taken as it is

/-- A block that is taken whole is off the list if it was the first. -/
theorem WellFormed.whole (h : WellFormed s (A ++ t :: B)) (ht : t.listed = true)
    (hA : NoneListed A) (hhead : s'.head = s.head)
    (hglobal : s'.globalHead = s.globalHead)
    (hfree : s'.headFree = t.link)
    (hc : Chain s'.mem (A ++ ⟨t.addr, NULL, false⟩ :: B)) :
    WellFormed s' (A ++ ⟨t.addr, NULL, false⟩ :: B) := by
  obtain ⟨hfront, hlink, hbehind⟩ := Lib.unbroken_append.mp h.unbroken
  rw [if_pos ht] at hlink
  constructor
  case ready =>
    unfold State.ready
    rw [hglobal]
    exact h.ready
  case chain => exact hc
  case head =>
    rw [hhead, h.head]
    cases A <;> rfl
  case unbroken =>
    exact Lib.unbroken_append.mpr ⟨hfront.of_none hA, rfl, hbehind⟩
  case headFree =>
    rw [hfree, hlink, Lib.firstListed_append, Lib.firstListed_none hA]
    rfl

/-- If it was not, a FREE block leads to it. -/
theorem WellFormed.not_whole (h : WellFormed s (A ++ t :: B))
    (ht : t.listed = true) (hc : Chain s.mem (A ++ t :: B))
    (h' : Unbroken NULL NULL (A ++ ⟨t.addr, NULL, false⟩ :: B)) :
    NoneListed A := by
  rcases Lib.exists_last A with hnone | ⟨D, q, E, rfl, hq, hE⟩
  · exact hnone
  exfalso
  have hbefore := h.unbroken
  rw [List.append_assoc, List.cons_append] at hbefore h'
  obtain ⟨-, hlink, -⟩ := Lib.unbroken_append.mp hbefore
  obtain ⟨-, hlink', -⟩ := Lib.unbroken_append.mp h'
  rw [if_pos hq, Lib.firstListed_append, Lib.firstListed_none hE, firstListed,
    if_pos ht] at hlink
  rw [if_pos hq, Lib.firstListed_append, Lib.firstListed_none hE,
    firstListed, if_neg Bool.false_ne_true, hlink] at hlink'
  exact hc.firstListed_ne hlink'.symm

-- ============================================================ cut in two

/-- The remainder of a block takes its place on the list. -/
theorem WellFormed.cut (h : WellFormed s (A ++ t :: B)) (ht : t.listed = true)
    (hhead : s'.head = s.head) (hglobal : s'.globalHead = s.globalHead)
    (hfree : s'.headFree = if A.any Lib.Cell.listed then s.headFree else n)
    (hc : Chain s'.mem (relink n A
      ++ ⟨t.addr, NULL, false⟩ :: ⟨n, t.link, true⟩ :: B)) :
    WellFormed s' (relink n A
      ++ ⟨t.addr, NULL, false⟩ :: ⟨n, t.link, true⟩ :: B) := by
  obtain ⟨hfront, hlink, hbehind⟩ := Lib.unbroken_append.mp h.unbroken
  rw [if_pos ht] at hlink
  have hfirst : firstListed NULL (⟨t.addr, NULL, false⟩ :: ⟨n, t.link, true⟩
      :: B) = n := by
    rw [firstListed, if_neg Bool.false_ne_true, firstListed, if_pos rfl]
  constructor
  case ready =>
    unfold State.ready
    rw [hglobal]
    exact h.ready
  case chain => exact hc
  case head =>
    rw [hhead, h.head]
    cases A with
    | nil => rfl
    | cons a rest =>
        unfold firstAddr
        rw [List.map_append, List.map_append, addrs_relink]
        rfl
  case unbroken =>
    refine Lib.unbroken_append.mpr ⟨?_, rfl, ?_, hbehind⟩
    · rw [hfirst]
      exact hfront.relink
    · rw [if_pos rfl, hlink]
  case headFree =>
    rw [hfree, Lib.firstListed_append, Lib.firstListed_relink, hfirst]
    cases hany : A.any Lib.Cell.listed with
    | true =>
        rw [if_pos rfl, h.headFree, Lib.firstListed_append]
        exact Lib.firstListed_of_any hany
    | false =>
        rw [if_neg Bool.false_ne_true,
          Lib.firstListed_none (Lib.noneListed_iff.mpr hany)]

/-- Wherever the new header is, the chosen block leads to it. -/
theorem splitBlock_next (hrun : splitBlock s c size = some s') :
    s'.mem.word c.nextToAllocate
      = c.nextToAllocate + BLOCK_HEADER + size := by
  unfold splitBlock at hrun
  simp only [Option.bind_eq_bind, Option.bind_eq_some_iff] at hrun
  obtain ⟨s₁, -, s₂, hlink, _, -, _, -, next, -, hrun⟩ := hrun
  have hword : s₂.mem.word c.nextToAllocate
      = c.nextToAllocate + BLOCK_HEADER + size := by
    unfold linkNew at hlink
    simp only [Option.bind_eq_bind] at hlink
    have hset : ∃ s₃ : State, s₃.setNext c.nextToAllocate
        (c.nextToAllocate + BLOCK_HEADER + size) = some s₂ := by
      split at hlink
      · obtain ⟨s₃, -, hset⟩ := Option.bind_eq_some_iff.mp hlink
        exact ⟨s₃, hset⟩
      · exact ⟨_, hlink⟩
    obtain ⟨s₃, hset⟩ := hset
    obtain ⟨-, rfl⟩ := State.store_eq_some hset
    exact Words.put_word_self
  rw [← Option.some.inj hrun]
  split <;> split <;> exact hword

/-- The last two writes are elsewhere. -/
theorem handOut_next {a actSize r : Int} (hrun : (do
      let s ← s.setNextFree a NULL
      let s ← s.setStatus a ALLOCATED
      some (a + BLOCK_HEADER,
        { s with remainingSize := i64 (s.remainingSize - actSize) }))
      = some (r, s')) : s'.mem.word a = s.mem.word a := by
  simp only [State.setNextFree, State.setStatus, Option.bind_eq_bind,
    Option.bind_eq_some_iff] at hrun
  obtain ⟨s₁, h₁, s₂, ⟨word, -, h₂⟩, hrun⟩ := hrun
  obtain ⟨-, rfl⟩ := State.store_eq_some h₁
  obtain ⟨-, rfl⟩ := State.store_eq_some h₂
  obtain ⟨-, rfl⟩ := Prod.mk.inj (Option.some.inj hrun)
  dsimp only
  rw [Words.put_word_ne (by omega), Words.put_word_ne (by omega)]

/-- A block of a well-formed heap does not lead to a header too close behind
it, let alone in front. -/
theorem WellFormed.apart (h : WellFormed s L) {a : Int} {f : Bool}
    (ha : (a, f) ∈ shapes L) (hn : n ∈ frees L) (hnext : s.mem.word a = n) :
    a + 40 ≤ n := by
  obtain ⟨A, t, B, rfl, heq⟩ := mem_shapes ha
  obtain ⟨rfl, -⟩ := Prod.mk.inj heq
  rw [h.chain.linked_at.1] at hnext
  cases B with
  | nil =>
      obtain ⟨D, b, E, hL, heq⟩ := mem_shapes (mem_frees.mp hn)
      have hchain := h.chain
      rw [hL] at hchain
      have hpos := hchain.mem.pos
      have haddr : n = b.addr := congrArg Prod.fst heq
      rw [← haddr, ← hnext] at hpos
      exact absurd hpos (Int.lt_irrefl _)
  | cons b rest =>
      have hbehind := h.chain.behind b List.mem_cons_self
      rw [firstAddr_cons] at hnext
      omega

-- ========================================================= the whole call

/-- The cached pointers are set first, which no header notices. -/
theorem Chosen.cached (hc : Chosen s c A t B) (h : Chain s.mem (A ++ t :: B))
    (l m : Int) :
    Chain { s with largest := l, secondLargest := m }.mem (A ++ t :: B)
      ∧ Chosen { s with largest := l, secondLargest := m } c A t B :=
  ⟨h, hc.free, hc.block, hc.prev, hc.size⟩

/-- Where the payload is, the block is. -/
theorem WellFormed.same_block (h : WellFormed s (A ++ t :: B))
    {A₁ B₁ : List Block} {t₁ : Block} (heq : A ++ t :: B = A₁ ++ t₁ :: B₁)
    (hp : t.addr + BLOCK_HEADER = t₁.addr + BLOCK_HEADER) :
    A = A₁ ∧ t = t₁ ∧ B = B₁ :=
  h.chain.split_unique heq (by omega)

/-- Cutting the chosen block, which is FREE. -/
theorem cutOff_iff (h : WellFormed s (A ++ t :: B)) (hc : Chosen s c A t B)
    (hcuts : Cuts s.lastBlockSize t B size) {l m actSize : Int} {s₁ : State}
    (hbranch : splitBlock { s with largest := l, secondLargest := m } c size
      = some s₁)
    (hrun : (do
      let s ← s₁.setNextFree t.addr NULL
      let s ← s.setStatus t.addr ALLOCATED
      some (t.addr + BLOCK_HEADER,
        { s with remainingSize := i64 (s.remainingSize - actSize) }))
      = some (p, s')) :
    p = t.addr + BLOCK_HEADER
      ∧ (TakenOff s s' (A ++ t :: B) p size ↔ BLOCK_SIZE ≤ size) := by
  obtain ⟨hchain, hc'⟩ := hc.cached h.chain l m
  have hnext := splitBlock_next hbranch
  rw [hc.block] at hnext
  have hword := handOut_next hrun
  have hpayload : p = t.addr + BLOCK_HEADER := by
    simp only [Option.bind_eq_bind, Option.bind_eq_some_iff] at hrun
    obtain ⟨s₂, -, s₃, -, hrun⟩ := hrun
    exact (Prod.mk.inj (Option.some.inj hrun)).1.symm
  refine ⟨hpayload, fun hout => ?_, fun hsize => ?_⟩
  · obtain ⟨A₁, t₁, B₁, L', heq, -, hp, hL', htaken, hfrees⟩ := hout
    obtain ⟨rfl, rfl, rfl⟩ := h.same_block heq (hpayload.symm.trans hp)
    have hn : t.addr + BLOCK_HEADER + size ∈ frees L' := by
      rw [hfrees, remainder, if_pos hcuts]
      simp
    have hapart := hL'.apart htaken hn (hword.trans hnext)
    unfold BLOCK_HEADER at hapart
    unfold BLOCK_SIZE
    omega
  · obtain ⟨m₁, l, m, rfl, -, hed⟩ := splitBlock_eq hchain hc'
      (by unfold BLOCK_HEADER; unfold BLOCK_SIZE at hsize; omega)
      (hcuts.room h.chain) hbranch
    obtain ⟨rfl, m', rfl, hed'⟩ := handOut_eq hed.chain hrun
    refine ⟨A, t, B, _, rfl, hc.free, rfl,
      h.cut hc.free rfl rfl rfl hed'.chain, ?_, ?_⟩
    · simp [shapes]
    · rw [frees_append, frees_cons, frees_cons, remainder, if_pos hcuts,
        List.append_assoc, frees_congr (shapes_relink _ A)]
      rfl

/-- Taking it as a whole. -/
theorem wholeOff_iff (h : WellFormed s (A ++ t :: B)) (hc : Chosen s c A t B)
    (hcuts : ¬Cuts s.lastBlockSize t B size) {l m actSize : Int} {s₁ : State}
    (hbranch : takeWhole { s with largest := l, secondLargest := m } c size
      = some s₁)
    (hrun : (do
      let s ← s₁.setNextFree t.addr NULL
      let s ← s.setStatus t.addr ALLOCATED
      some (t.addr + BLOCK_HEADER,
        { s with remainingSize := i64 (s.remainingSize - actSize) }))
      = some (p, s')) :
    p = t.addr + BLOCK_HEADER
      ∧ (TakenOff s s' (A ++ t :: B) p size ↔ NoneListed A) := by
  obtain ⟨hchain, hc'⟩ := hc.cached h.chain l m
  have heq := takeWhole_eq hchain hc' hbranch
  have hchain₁ : Chain s₁.mem (A ++ t :: B) := heq ▸ h.chain
  obtain ⟨rfl, m', rfl, hed⟩ := handOut_eq hchain₁ hrun
  subst heq
  refine ⟨rfl, fun hout => ?_, fun hA => ?_⟩
  · obtain ⟨A₁, t₁, B₁, L', heq, -, hp, hL', -⟩ := hout
    obtain ⟨rfl, rfl, rfl⟩ := h.same_block heq hp
    refine h.not_whole hc.free h.chain ?_
    rw [← hL'.eq_of_chain hed.chain ?_]
    · exact hL'.unbroken
    · rw [show _ = s.head from rfl, h.head]
      cases A <;> rfl
  · refine ⟨A, t, B, _, rfl, hc.free, rfl, h.whole hc.free hA rfl rfl ?_
      hed.chain, ?_, ?_⟩
    · rw [Lib.noneListed_iff.mp hA]
      rfl
    · simp [shapes]
    · rw [frees_append, frees_cons, remainder, if_neg hcuts]
      simp

/-- Taking the chosen block, which is FREE. -/
theorem takeBlock_iff (h : WellFormed s (A ++ t :: B)) (hc : Chosen s c A t B)
    (hsome : c.sizeToAllocate ≠ -1) {actSize : Int}
    (hrun : takeBlock s c actSize size = some (p, s')) :
    p = t.addr + BLOCK_HEADER ∧ (TakenOff s s' (A ++ t :: B) p size
      ↔ if Cuts s.lastBlockSize t B size then BLOCK_SIZE ≤ size
        else NoneListed A) := by
  unfold takeBlock at hrun
  simp only [Option.bind_eq_bind] at hrun
  rw [if_neg hsome] at hrun
  obtain ⟨next, hnext, hrun⟩ := Option.bind_eq_some_iff.mp hrun
  have hread : s.next c.nextToAllocate = some (firstAddr B) := by
    rw [hc.block]
    exact State.next_eq h.chain
  obtain rfl := Option.some.inj (hnext.symm.trans hread)
  split at hrun
  case isTrue hsplits =>
    have hcuts := (hc.splits_iff h.chain).mp hsplits
    obtain ⟨s₁, hbranch, hrun⟩ := Option.bind_eq_some_iff.mp hrun
    rw [hc.block] at hrun
    rw [if_pos hcuts]
    exact cutOff_iff h hc hcuts hbranch hrun
  case isFalse hsplits =>
    have hcuts := mt (hc.splits_iff h.chain).mpr hsplits
    obtain ⟨s₁, hbranch, hrun⟩ := Option.bind_eq_some_iff.mp hrun
    rw [hc.block] at hrun
    rw [if_neg hcuts]
    exact wholeOff_iff h hc hcuts hbranch hrun

/-- A `Mem_Alloc` that hands a block out leaves a well-formed heap well formed
if and only if the block it is after can be unlinked. -/
theorem takes_off_iff (h : WellFormed s L) (hl : Leads L s.largest)
    (hrun : memAlloc fuel s size = some (p, s')) (hp : p ≠ NULL) :
    TakenOff s s' L p (roundTo size BLOCK_SIZE)
      ↔ Unlinks s L (roundTo size BLOCK_SIZE) := by
  obtain ⟨c, hsearch, hsome, htake⟩ := memAlloc_takes hrun hp
  obtain ⟨A, t, B, rfl, ht, hblock, hc⟩ := h.search hl hsearch hsome
  -- there is one block to look at
  have hone : Unlinks s (A ++ t :: B) (roundTo size BLOCK_SIZE)
      ↔ t.listed = true
        ∧ if Cuts s.lastBlockSize t B (roundTo size BLOCK_SIZE)
          then BLOCK_SIZE ≤ roundTo size BLOCK_SIZE else NoneListed A := by
    constructor
    · exact fun hun => hun A t B rfl ht
    · intro hun A₁ t₁ B₁ heq ht₁
      obtain ⟨rfl, rfl, rfl⟩ := ht.unique ht₁ h.chain heq
      exact hun
  rw [hone]
  cases hfree : t.listed with
  | true =>
      obtain ⟨-, hiff⟩ := takeBlock_iff h (hc hfree) hsome htake
      rw [hiff]
      exact (and_iff_right rfl).symm
  | false =>
      refine ⟨fun hout => ?_, fun hun => absurd hun.1 Bool.false_ne_true⟩
      obtain ⟨A₁, t₁, B₁, L', heq, ht₁, hp₁, -⟩ := hout
      obtain ⟨c', hsearch', -, hp'⟩ := memAlloc_chosen hrun hp
      obtain rfl := Option.some.inj (hsearch.symm.trans hsearch')
      rw [hp', hblock] at hp₁
      obtain ⟨-, rfl, -⟩ := h.chain.split_unique heq (by omega)
      rw [hfree] at ht₁
      cases ht₁

/-- The theorem where the second block of the region is cut. -/
theorem takes_off_iff_cut : ∃ c p s',
    Lib.run (client fun _ _ => True) [.alloc 9 8] (opened 24) = some c
      ∧ memAlloc 9 c.heap 8 = some (p, s')
      ∧ TakenOff c.heap s' [⟨65584, NULL, false⟩, ⟨65624, NULL, true⟩] p 8
      ∧ Unlinks c.heap [⟨65584, NULL, false⟩, ⟨65624, NULL, true⟩] 8 := by
  let c := (Lib.run (client fun _ _ => True) [.alloc 9 8] (opened 24)).get
    (by decide +kernel)
  let r := (memAlloc 9 c.heap 8).get (by decide +kernel)
  have hr : memAlloc 9 c.heap 8 = some (r.1, r.2) := (Option.some_get _).symm
  have hout : TakenOff c.heap r.2
      [⟨65584, NULL, false⟩, ⟨65624, NULL, true⟩] r.1 8 :=
    ⟨[⟨65584, NULL, false⟩], ⟨65624, NULL, true⟩, [],
      [⟨65584, NULL, false⟩, ⟨65624, NULL, false⟩, ⟨65664, NULL, true⟩],
      rfl, rfl, by decide +kernel, by decide +kernel, by decide,
      by decide +kernel⟩
  have hround : roundTo 8 BLOCK_SIZE = 8 := by decide +kernel
  have hiff := takes_off_iff (L := [⟨65584, NULL, false⟩, ⟨65624, NULL, true⟩])
    (by decide +kernel) (.inr (by decide +kernel)) hr (by decide +kernel)
  rw [hround] at hiff
  exact ⟨c, r.1, r.2, (Option.some_get _).symm, hr, hout, hiff.mp hout⟩

/-- A second FREE block that is taken whole stays on the list. -/
theorem stays_listed : ¬∀ (s s' : State) (L : List Block) (fuel : Nat)
    (size p : Int), WellFormed s L → Leads L s.largest →
    Leads L s.secondLargest → 1 ≤ size →
    memAlloc fuel s size = some (p, s') → p ≠ NULL →
    TakenOff s s' L p (roundTo size BLOCK_SIZE) := by
  intro hall
  let c := (Lib.run (client fun _ _ => True) [.alloc 9 8, .free 9 65616 0]
    (opened 24)).get (by decide +kernel)
  let r := (memAlloc 9 c.heap 9).get (by decide +kernel)
  obtain ⟨A, t, B, L', -, -, -, hL', -⟩ := hall c.heap r.2
    [⟨65584, 65624, true⟩, ⟨65624, NULL, true⟩] 9 9 r.1 (by decide +kernel)
    (.inr (by decide +kernel)) (.inr (by decide +kernel)) (by decide)
    (Option.some_get _).symm (by decide +kernel)
  have hchain : Chain r.2.mem [⟨65584, 65624, true⟩, ⟨65624, NULL, false⟩] := by
    decide +kernel
  have hunbroken := hL'.unbroken
  rw [hL'.eq_of_chain hchain (by decide +kernel)] at hunbroken
  exact absurd hunbroken (by decide)

end OperatingSystem.Heap
