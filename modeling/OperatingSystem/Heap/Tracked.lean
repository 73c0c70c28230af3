/-
The free list and the cached pointers, as `Mem_Alloc` uses and leaves them.

The scan takes the first of the largest FREE blocks if the free list has
them all; the fast path takes the cached largest block. So the free list
must not break off, and while both cached pointers are set the larger one
must be the largest FREE block (`Tracked`).

# Where this goes wrong

- The scan starts with both pointers at the first block of the list. If no
  later block is as large, `second_largest` stays there, at the very block
  that is then cut; and the last block is compared with the size it had
  before the cut. What is left of the block becomes the cached largest block
  although another one may be larger (`RestIsLargest`).
- The size of a block is put into an `int` (`IntLast`).
- A freed block that only the previous block absorbs loses the rest of the
  free list (`BreaksOff`).
- `coalesce_all` makes blocks grow and does not look at the cached pointers
  again (`Outgrows`).
-/
import OperatingSystem.Heap.Fresh
import OperatingSystem.Heap.Sizes

namespace OperatingSystem.Heap

open Lib (Words i32 i64 Reach Anything firstListed lastListed lastLink relink
  NoneListed Unbroken)

variable {s s' s₁ : State} {A A' B B' D L L' : List Block} {t t' : Block}
  {c c' : Choice} {fuel : Nat} {p size : Int}

-- ============================================================== the guard

/-- `last_block_size` is the value of an `int`, if the last block is
FREE. -/
def IntLast (s : State) : Prop :=
  ∀ p, OnChain s p → s.next p = some NULL → s.status p = some FREE →
    -2147483648 ≤ s.lastBlockSize ∧ s.lastBlockSize < 2147483648

/-- What is left of a block of `available` bytes, `next` being behind it. -/
def restSize (next available size : Int) : Int :=
  if next ≠ NULL then available - (BLOCK_HEADER + size) else available - size

/-- What `Mem_Alloc` compares with the size of `second_largest`. -/
def restCompared (s : State) (next available size : Int) : Int :=
  if next ≠ NULL then available - (BLOCK_HEADER + size) else s.lastBlockSize

/-- Once the chosen block has been cut, `second_largest` names a block that
is at least as large as what is left of it. -/
def Outweighed (s : State) (c : Choice) (next size : Int) : Prop :=
  if c.secondLargest = c.nextToAllocate then
    restCompared s next c.sizeToAllocate size ≤ size
  else OnChain s c.secondLargest ∧ ∃ k,
    getBlockSize s c.secondLargest = some k
      ∧ restCompared s next c.sizeToAllocate size ≤ k

/-- What is left of a block that `Mem_Alloc(size)` cuts is not smaller than
another FREE block, or `second_largest` is known to be larger. -/
def RestIsLargest (s : State) (size : Int) : Prop :=
  ∀ fuel c next, search s fuel (roundTo size BLOCK_SIZE) = some c →
    c.sizeToAllocate ≠ -1 → s.next c.nextToAllocate = some next →
    splits next c (roundTo size BLOCK_SIZE) → c.secondLargest ≠ NULL →
    Outweighed s c next (roundTo size BLOCK_SIZE)
      ∨ ∀ p k, OnChain s p → p ≠ c.nextToAllocate →
        s.status p = some FREE → getBlockSize s p = some k →
        k ≤ restSize next c.sizeToAllocate (roundTo size BLOCK_SIZE)

/-- The freed block at `p` is absorbed by the previous one only, and FREE
blocks follow. -/
def BreaksOff (s : State) (p : Int) : Prop :=
  (∃ w, FreeBefore s p w) ∧ (¬∃ x, FreeAfter s p x)
    ∧ ∃ q, OnChain s q ∧ p < q ∧ s.status q = some FREE

/-- `my_coalesce` on `p` yields a block larger than the cached largest one,
and both cached pointers stay set. -/
def Outgrows (s : State) (p : Int) : Prop :=
  ∃ merged s', myCoalesce s p = some (merged, s')
    ∧ s'.largest ≠ NULL ∧ s'.secondLargest ≠ NULL
    ∧ ∃ k k', getBlockSize s' s'.largest = some k
      ∧ getBlockSize s' merged = some k' ∧ k < k'

/-- What else is asked of `Mem_Alloc(size)`, -/
def AllocTracks (s : State) (size : Int) : Prop :=
  IntLast s ∧ RestIsLargest s size

/-- of the calls of `my_coalesce` in a global pass, -/
def PassTracks (s : State) (p : Int) : Prop := InRange s p ∧ ¬Outgrows s p

/-- and of the one for a freed block. -/
def FreeTracks (s : State) (p : Int) : Prop := InRange s p ∧ ¬BreaksOff s p

/-- No call damages the heap, the free list or what the cached pointers
say. -/
def Tracking : Act → Config → Prop :=
  Guarded AllocTracks PassTracks FreeTracks

theorem Tracking.careful {a : Act} {c : Config} (h : Tracking a c) :
    Careful a c := by
  cases a with
  | alloc fuel size => exact fun hle => ⟨(h hle).1, trivial⟩
  | free fuel ptr coalesce =>
      obtain ⟨hpass, hfreed⟩ := h
      refine ⟨fun hz hptr c hc => ⟨(hpass hz hptr c hc).1, trivial⟩, ?_⟩
      intro hz hne s₁ s₂ h₁ h₂
      obtain ⟨hstale, hdangling, hrange, -⟩ := hfreed hz hne s₁ s₂ h₁ h₂
      exact ⟨hstale, hdangling, hrange⟩
  | write a v => trivial

-- ========================================================= the invariant

/-- The free list has every FREE block, and the cached largest block is
one. -/
structure Tracked (s : State) (L : List Block) : Prop where
  unbroken : Unbroken NULL NULL L
  headFree : s.headFree = firstListed NULL L
  cached : s.largest ≠ NULL → s.secondLargest ≠ NULL →
    IsLargest s.lastBlockSize (shapes L) s.largest

/-- An `int` holds the size of a FREE block. -/
theorem Inv.i32_free (h : Inv s (A ++ t :: B)) (hint : IntLast s)
    (ht : t.listed = true) :
    i32 (blockSize s.lastBlockSize t B) = blockSize s.lastBlockSize t B := by
  cases B with
  | nil =>
      have hon : OnChain s t.addr :=
        (onChain_iff h.chain h.head).mpr ⟨t, by simp, rfl⟩
      have hnext : s.next t.addr = some NULL := State.next_eq h.chain
      have hfree : s.status t.addr = some FREE := by
        rw [State.status_eq h.chain.mem, statusOf, if_pos ht]
      obtain ⟨hlo, hhi⟩ := hint t.addr hon hnext hfree
      exact Lib.i32_of_range hlo hhi
  | cons b rest => rw [h.chain.i32_blockSize h.mem_small, blockSize]

-- =============================================================== the scan

/-- What the scan knows once it has been past the blocks `seen`, of all the
blocks there are. -/
structure Best (size : Int) (all seen : List Span) (c : Choice) : Prop where
  largest : ∃ k, ⟨c.largest, true, k⟩ ∈ all
    ∧ ∀ q ∈ seen, q.free = true → q.size ≤ k
  chosen : c.sizeToAllocate = -1
        ∧ (∀ q ∈ seen, q.free = true → q.size ≤ size ∨ q.size ≤ -1)
      ∨ c.sizeToAllocate > size
        ∧ ⟨c.nextToAllocate, true, c.sizeToAllocate⟩ ∈ all
        ∧ ∀ q ∈ seen, q.free = true → q.size ≤ c.sizeToAllocate

/-- Blocks that are not FREE do not matter. -/
theorem Best.mono {all seen seen' : List Span} (h : Best size all seen c)
    (hsub : ∀ q ∈ seen', q.free = true → q ∈ seen) :
    Best size all seen' c := by
  obtain ⟨⟨k, hin, hle⟩, hchosen⟩ := h
  refine ⟨⟨k, hin, fun q hq hfree => hle q (hsub q hq hfree) hfree⟩, ?_⟩
  rcases hchosen with ⟨hnone, hsmall⟩ | ⟨hgt, hin', hmax⟩
  · exact .inl ⟨hnone, fun q hq hfree => hsmall q (hsub q hq hfree) hfree⟩
  · exact .inr ⟨hgt, hin', fun q hq hfree => hmax q (hsub q hq hfree) hfree⟩

/-- One iteration, at a FREE block. -/
theorem Best.step {all seen : List Span} {q : Span} {temp1 : Int}
    (h : Best size all seen c) (hq : q ∈ all) (hfree : q.free = true)
    (hread : ∀ q ∈ all, getBlockSize s q.addr = some q.size)
    (hrank : rank s q.addr q.size c = some c') :
    Best size all (q :: seen)
      (if q.size > size ∧ q.size > c'.sizeToAllocate then
        { c' with
          sizeToAllocate := q.size
          prevFree := temp1
          nextToAllocate := q.addr }
      else c') := by
  obtain ⟨⟨k, hin, hle⟩, hchosen⟩ := h
  have hq' : (⟨q.addr, true, q.size⟩ : Span) ∈ all := by
    rw [← hfree]
    exact hq
  obtain ⟨hsize, -, hblock, -⟩ := rank_eq hrank
  have hlargest : ∃ k, ⟨c'.largest, true, k⟩ ∈ all
      ∧ ∀ r ∈ q :: seen, r.free = true → r.size ≤ k := by
    unfold rank at hrank
    rw [hread _ hin, Option.bind_eq_bind, Option.bind_some] at hrank
    dsimp only at hrank
    split at hrank
    case isTrue hge =>
      obtain rfl := Option.some.inj hrank
      refine ⟨q.size, hq', fun r hr hrfree => ?_⟩
      rcases List.mem_cons.mp hr with rfl | hr
      · exact Int.le_refl _
      · exact Int.le_trans (hle r hr hrfree) hge
    case isFalse hlt =>
      have hsame : c'.largest = c.largest := by
        obtain ⟨sizeOfSecond, -, hrank⟩ := Option.bind_eq_some_iff.mp hrank
        split at hrank
        case isTrue => exact Option.some.inj hrank ▸ rfl
        case isFalse => exact Option.some.inj hrank ▸ rfl
      rw [hsame]
      refine ⟨k, hin, fun r hr hrfree => ?_⟩
      rcases List.mem_cons.mp hr with rfl | hr
      · omega
      · exact hle r hr hrfree
  rw [← hsize, ← hblock] at hchosen
  split
  case isTrue hbest =>
    refine ⟨hlargest, .inr ⟨hbest.1, hq', fun r hr hrfree => ?_⟩⟩
    dsimp only
    rcases List.mem_cons.mp hr with rfl | hr
    · exact Int.le_refl _
    · rcases hchosen with ⟨hnone, hsmall⟩ | ⟨hgt, -, hmax⟩
      · have := hsmall r hr hrfree
        omega
      · have := hmax r hr hrfree
        omega
  case isFalse hnot =>
    refine ⟨hlargest, ?_⟩
    rcases hchosen with ⟨hnone, hsmall⟩ | ⟨hgt, hin', hmax⟩
    · refine .inl ⟨hnone, fun r hr hrfree => ?_⟩
      rcases List.mem_cons.mp hr with rfl | hr
      · omega
      · exact hsmall r hr hrfree
    · refine .inr ⟨hgt, hin', fun r hr hrfree => ?_⟩
      rcases List.mem_cons.mp hr with rfl | hr
      · omega
      · exact hmax r hr hrfree

/-- No FREE block is in a segment that the free list leaves out. -/
theorem not_free_of_none {last : Int} {next : Option Int} {q : Span}
    (h : NoneListed D) (hq : q ∈ spans last next (shapes D)) :
    q.free = false := by
  have hmem := mem_shapes_of_span hq
  obtain ⟨b, hb, heq⟩ := List.mem_map.mp hmem
  rw [← (Prod.mk.inj heq).2]
  exact h b hb

/-- The scan comes by every FREE block: the list in front of it has them
all. -/
theorem Tracked.scan (hw : Tracked s L) (h : Inv s L) (hint : IntLast s) :
    ∀ (fuel : Nat) (temp1 : Int) (c c' : Choice) (A R : List Block),
    L = A ++ R →
    Best size (spans s.lastBlockSize none (shapes L))
      (spans s.lastBlockSize (nextAddr none (shapes R)) (shapes A)) c →
    Heap.scan s size fuel (firstListed NULL R) temp1 c = some c' →
    Best size (spans s.lastBlockSize none (shapes L))
      (spans s.lastBlockSize none (shapes L)) c' := by
  intro fuel
  induction fuel with
  | zero => intro temp1 c c' A R _ _ hrun; cases hrun
  | succ fuel ih =>
      intro temp1 c c' A R hL hbest hrun
      rw [Heap.scan] at hrun
      rcases Lib.exists_first R with hnone | ⟨D, t, E, rfl, ht, hD⟩
      · rw [Lib.firstListed_none hnone, if_pos rfl] at hrun
        obtain rfl := Option.some.inj hrun
        refine hbest.mono fun q hq hfree => ?_
        rw [hL, shapes_append, spans_append, List.mem_append] at hq
        refine hq.resolve_right fun hR => ?_
        rw [not_free_of_none hnone hR] at hfree
        cases hfree
      · have hL' : L = (A ++ D) ++ t :: E := by rw [hL, List.append_assoc]
        have hinv : Inv s ((A ++ D) ++ t :: E) := hL' ▸ h
        have hlink : t.link = firstListed NULL E := by
          have hunbroken := hw.unbroken
          rw [hL'] at hunbroken
          obtain ⟨-, hlink, -⟩ := Lib.unbroken_append.mp hunbroken
          rwa [if_pos ht] at hlink
        rw [Lib.firstListed_split ht hD, if_neg hinv.chain.mem.ne_null,
          getBlockSize_eq hinv.chain, Option.bind_eq_bind,
          Option.bind_some] at hrun
        dsimp only at hrun
        rw [hinv.i32_free hint ht] at hrun
        obtain ⟨c₁, hrank, hrun⟩ := Option.bind_eq_some_iff.mp hrun
        rw [State.nextFree_eq hinv.chain.mem, Option.bind_some, hlink] at hrun
        have hspan : (⟨t.addr, true, blockSize s.lastBlockSize t E⟩ : Span)
            ∈ spans s.lastBlockSize none (shapes L) :=
          span_iff.mpr ⟨A ++ D, t, E, hL', by rw [ht]⟩
        refine ih t.addr _ c' (A ++ D ++ [t]) E ?_ ?_ hrun
        · rw [hL', List.append_assoc, List.append_assoc, List.append_assoc]
          rfl
        · refine (hbest.step hspan rfl (fun q hq =>
            (h.chain.read_span hq).1) hrank).mono ?_
          intro q hq hfree
          rw [shapes_append, shapes_append, spans_append, spans_append,
            List.mem_append, List.mem_append] at hq
          rcases hq with (hq | hq) | hq
          · refine List.mem_cons_of_mem _ ?_
            rw [shapes_append, nextAddr_append, shapes_cons]
            exact hq
          · rw [not_free_of_none hD hq] at hfree
            cases hfree
          · rw [shapes_cons] at hq
            obtain rfl := List.mem_singleton.mp hq
            rw [blockSize_eq_gap]
            dsimp only at hfree
            rw [hfree]
            exact List.mem_cons_self

/-- A whole scan. -/
theorem Tracked.fullScan (hw : Tracked s L) (h : Inv s L) (hint : IntLast s)
    {l m : Int}
    (hl : ∃ k, ⟨l, true, k⟩ ∈ spans s.lastBlockSize none (shapes L))
    (hrun : Heap.scan s size fuel s.headFree NULL (unchosen l m) = some c) :
    Best size (spans s.lastBlockSize none (shapes L))
      (spans s.lastBlockSize none (shapes L)) c := by
  obtain ⟨k, hk⟩ := hl
  rw [hw.headFree] at hrun
  exact hw.scan h hint fuel NULL _ c [] L rfl
    ⟨⟨k, hk, nofun⟩, .inl ⟨rfl, nofun⟩⟩ hrun

theorem Best.isLargest {last : Int} {P : List (Int × Bool)}
    (h : Best size (spans last none P) (spans last none P) c) :
    IsLargest last P c.largest := h.largest

/-- A FREE block with a size that no FREE block exceeds. -/
def Maximal (s : State) (L : List Block) (a k : Int) : Prop :=
  ⟨a, true, k⟩ ∈ spans s.lastBlockSize none (shapes L)
    ∧ ∀ q ∈ spans s.lastBlockSize none (shapes L), q.free = true → q.size ≤ k

theorem Best.maximal
    (h : Best size (spans s.lastBlockSize none (shapes L))
      (spans s.lastBlockSize none (shapes L)) c)
    (hsome : c.sizeToAllocate ≠ -1) :
    Maximal s L c.nextToAllocate c.sizeToAllocate := by
  rcases h.chosen with ⟨hnone, -⟩ | ⟨-, hin, hmax⟩
  · exact absurd hnone hsome
  · exact ⟨hin, hmax⟩

/-- The first block on the list, if there is one. -/
theorem Tracked.first (hw : Tracked s L) (hne : s.headFree ≠ NULL) :
    ∃ k, ⟨s.headFree, true, k⟩ ∈ spans s.lastBlockSize none (shapes L) := by
  obtain ⟨D, t, E, rfl, ht, -, heq⟩ := exists_of_first hne (.inr hw.headFree)
  exact ⟨_, span_iff.mpr ⟨D, t, E, rfl, by rw [heq, ht]⟩⟩

/-- An empty list is not scanned. -/
theorem scan_null {temp1 : Int} (hrun : Heap.scan s size fuel NULL temp1 c
    = some c') : c' = c := by
  cases fuel with
  | zero => cases hrun
  | succ fuel =>
      rw [Heap.scan, if_pos rfl] at hrun
      exact (Option.some.inj hrun).symm

/-- Whichever way the search goes, the block it chooses is a largest FREE
one, and so is the one it caches. -/
theorem Tracked.search (hw : Tracked s L) (h : Inv s L) (hint : IntLast s)
    (hrun : Heap.search s fuel size = some c) :
    (c.largest ≠ NULL → c.secondLargest ≠ NULL →
      IsLargest s.lastBlockSize (shapes L) c.largest)
      ∧ (c.sizeToAllocate ≠ -1 →
        Maximal s L c.nextToAllocate c.sizeToAllocate) := by
  unfold Heap.search at hrun
  split at hrun
  case isTrue hboth =>
    obtain ⟨k, hk, hmax⟩ := hw.cached hboth.1 hboth.2
    simp only [Option.bind_eq_bind, Option.bind_eq_some_iff] at hrun
    obtain ⟨sizeOfLargest, hsize, sizeOfSecond, -, hrun⟩ := hrun
    split at hrun
    case isTrue =>
      simp only [Option.bind_eq_some_iff] at hrun
      obtain ⟨prev, -, prevFree, -, hrun⟩ := hrun
      obtain rfl := Option.some.inj hrun
      have hread := (h.chain.read_span hk).1
      obtain rfl := Option.some.inj (hsize.symm.trans hread)
      obtain ⟨A, t, B, rfl, heq⟩ := span_iff.mp hk
      obtain ⟨haddr, ht, rfl⟩ := Span.mk.inj heq
      have hint' := h.i32_free hint ht.symm
      refine ⟨fun _ _ => ⟨_, hk, hmax⟩, fun _ => ?_⟩
      dsimp only
      rw [hint']
      exact ⟨hk, hmax⟩
    case isFalse =>
      have hbest := hw.fullScan h hint ⟨k, hk⟩ hrun
      exact ⟨fun _ _ => hbest.isLargest, hbest.maximal⟩
  case isFalse =>
    by_cases hne : s.headFree = NULL
    · rw [hne] at hrun
      obtain rfl := scan_null hrun
      exact ⟨fun hl => absurd rfl hl, fun hsome => absurd rfl hsome⟩
    · have hbest := hw.fullScan h hint (hw.first hne) hrun
      exact ⟨fun _ _ => hbest.isLargest, hbest.maximal⟩

-- ============================================================= Mem_Alloc

/-- The size of an ALLOCATED last block is not recorded. -/
theorem spans_unlisted {last' : Int} (hlast : B ≠ [] →
    last' = s.lastBlockSize) {q : Span} :
    q ∈ spans last' (some p) (shapes A) ∨ q ∈ spans last' none (shapes B)
      ↔ q ∈ spans s.lastBlockSize (some p) (shapes A)
        ∨ q ∈ spans s.lastBlockSize none (shapes B) := by
  rw [spans_some last' s.lastBlockSize, spans_behind s.lastBlockSize last']
  intro hne
  exact hlast fun hnil => hne (by rw [hnil]; rfl)

/-- In a chain the blocks around `t` are elsewhere. -/
theorem Chain.span_ne {m : Words} {last : Int} (h : Chain m (A ++ t :: B))
    {q : Span} (hq : q ∈ spans last (some t.addr) (shapes A)
      ∨ q ∈ spans last none (shapes B)) : q.addr ≠ t.addr := by
  rcases hq with hq | hq
  · obtain ⟨b, hb, heq⟩ := List.mem_map.mp (mem_shapes_of_span hq)
    have := h.before b hb
    have haddr : b.addr = q.addr := congrArg Prod.fst heq
    omega
  · obtain ⟨b, hb, heq⟩ := List.mem_map.mp (mem_shapes_of_span hq)
    have := h.behind b hb
    have haddr : b.addr = q.addr := congrArg Prod.fst heq
    omega

/-- A block elsewhere in the chain has the size it had before the cut. -/
theorem getBlockSize_elsewhere (h : Inv s (A ++ t :: B)) {m' : Words} {n : Int}
    (hm' : Chain m' (relink n A ++ t :: ⟨n, t.link, true⟩ :: B))
    (hon : OnChain s p) (hne : p ≠ t.addr) :
    getBlockSize { s with mem := m' } p = getBlockSize s p := by
  obtain ⟨q, hq, rfl⟩ := h.chain.exists_span h.head hon
  have hq' : q ∈ spans s.lastBlockSize none
      (shapes (relink n A ++ t :: ⟨n, t.link, true⟩ :: B)) := by
    rw [shapes_append, shapes_cons, mem_spans] at hq
    rw [shapes_append, shapes_relink, shapes_cons, mem_spans, shapes_cons]
    rcases hq with hq | rfl | hq
    · exact .inl hq
    · exact absurd rfl hne
    · exact .inr (.inr (List.mem_cons_of_mem _ hq))
  have hread' := (Chain.read_span (s := { s with mem := m' }) hm' hq').1
  exact hread'.trans (h.chain.read_span hq).1.symm

/-- What `Mem_Alloc` knows of the block it cuts, if it caches the rest. -/
theorem RestIsLargest.bound (h : Inv s (A ++ t :: B)) (ht : t.listed = true)
    (hint : IntLast s) {n req : Int} (hreq : roundTo size BLOCK_SIZE = req)
    (hrest : RestIsLargest s size) (hsearch : search s fuel req = some c)
    (hc : Chosen s c A t B) (hsome : c.sizeToAllocate ≠ -1)
    (hsplits : splits (firstAddr B) c req) (hn : n = t.addr + BLOCK_HEADER + req)
    (hsecond : c.secondLargest ≠ NULL) {m' : Words}
    (hm' : Chain m' (relink n A ++ t :: ⟨n, t.link, true⟩ :: B))
    {sizeOfNew sizeOfSecond : Int}
    (hnew : getBlockSize { s with mem := m' } n = some sizeOfNew)
    (hsec : getBlockSize { s with mem := m' } c.secondLargest
      = some sizeOfSecond)
    (hgt : sizeOfNew > sizeOfSecond) :
    ∀ q : Span, q ∈ spans s.lastBlockSize (some t.addr) (shapes A)
        ∨ q ∈ spans s.lastBlockSize none (shapes B) → q.free = true →
      q.size ≤ restSize (firstAddr B) c.sizeToAllocate req := by
  have hnext : s.next c.nextToAllocate = some (firstAddr B) := by
    rw [hc.block]
    exact State.next_eq h.chain
  have hsize : c.sizeToAllocate = blockSize s.lastBlockSize t B := by
    rw [hc.size, h.i32_free hint ht]
  have hspan : ∀ q : Span, q ∈ spans s.lastBlockSize (some t.addr) (shapes A)
      ∨ q ∈ spans s.lastBlockSize none (shapes B) →
      q ∈ spans s.lastBlockSize none (shapes (A ++ t :: B)) := by
    intro q hq
    rw [shapes_append, shapes_cons, mem_spans]
    exact hq.imp_right .inr
  subst hreq
  rcases hrest fuel c _ hsearch hsome hnext hsplits hsecond with hout | hmax
  · -- the comparison would have come out the other way
    exfalso
    have hcn := hm'
    rw [List.append_cons] at hcn
    have hread := getBlockSize_eq (s := { s with mem := m' }) hcn
    have hcompared : sizeOfNew
        = restCompared s (firstAddr B) c.sizeToAllocate
          (roundTo size BLOCK_SIZE) := by
      rw [Option.some.inj (hnew.symm.trans hread), restCompared, hsize]
      cases B with
      | nil => rw [firstAddr_nil, if_neg (not_not.mpr rfl)]; rfl
      | cons b rest =>
          have hb : Holds s.mem b := h.chain.holds b (by simp)
          rw [firstAddr_cons, if_pos hb.ne_null, blockSize, blockSize, hn]
          unfold BLOCK_HEADER
          dsimp only
          omega
    unfold Outweighed at hout
    split at hout
    case isTrue heq =>
      rw [heq, hc.block] at hsec
      have hread := getBlockSize_eq (s := { s with mem := m' }) hm'
      have hreq : sizeOfSecond = roundTo size BLOCK_SIZE := by
        rw [Option.some.inj (hsec.symm.trans hread), blockSize, hn]
        unfold BLOCK_HEADER
        dsimp only
        omega
      omega
    case isFalse hne =>
      obtain ⟨hon, k, hk, hle⟩ := hout
      rw [hc.block] at hne
      rw [getBlockSize_elsewhere h hm' hon hne, hk] at hsec
      obtain rfl := Option.some.inj hsec
      omega
  · intro q hq hfree
    have hin := hspan q hq
    obtain ⟨hread, hstatus⟩ := h.chain.read_span hin
    refine hmax q.addr q.size (h.chain.onChain_span h.head hin) ?_
      (hstatus.mpr hfree) hread
    rw [hc.block]
    exact h.chain.span_ne hq

/-- Cutting the chosen block: what is left takes its place on the list. -/
theorem Tracked.cut (hw : Tracked s (A ++ t :: B)) (ht : t.listed = true)
    {n l m last : Int} (hlast : B ≠ [] → last = s.lastBlockSize)
    (hcached : m ≠ NULL → l = n ∧ ∀ q : Span,
      q ∈ spans s.lastBlockSize (some t.addr) (shapes A)
        ∨ q ∈ spans s.lastBlockSize none (shapes B) → q.free = true →
      q.size ≤ gap last n (nextAddr none (shapes B)))
    (hL' : L' = relink n A ++ ⟨t.addr, NULL, false⟩ :: ⟨n, t.link, true⟩ :: B)
    (hs' : s'.headFree = (if A.any Lib.Cell.listed then s.headFree else n)
      ∧ s'.largest = l ∧ s'.secondLargest = m ∧ s'.lastBlockSize = last) :
    Tracked s' L' := by
  obtain ⟨hA, hlink, hB⟩ := Lib.unbroken_append.mp hw.unbroken
  rw [if_pos ht] at hlink
  obtain ⟨hfree, rfl, rfl, rfl⟩ := hs'
  have hfirst : firstListed NULL (⟨t.addr, NULL, false⟩ :: ⟨n, t.link, true⟩
      :: B) = n := by
    rw [firstListed, if_neg Bool.false_ne_true, firstListed, if_pos rfl]
  rw [hL']
  constructor
  case unbroken =>
    refine Lib.unbroken_append.mpr ⟨?_, (if_neg Bool.false_ne_true).symm, ?_, hB⟩
    · rw [hfirst]
      exact hA.relink
    · rw [if_pos rfl]
      exact hlink
  case headFree =>
    rw [hfree, Lib.firstListed_append, hfirst, Lib.firstListed_relink]
    have hhead := hw.headFree
    rw [Lib.firstListed_append] at hhead
    cases hany : A.any Lib.Cell.listed with
    | true =>
        rw [if_pos rfl, hhead]
        exact Lib.firstListed_of_any hany
    | false =>
        rw [if_neg Bool.false_ne_true,
          Lib.firstListed_none (Lib.noneListed_iff.mpr hany)]
  case cached =>
    intro _ hm
    obtain ⟨hl, hle⟩ := hcached hm
    rw [hl, shapes_append, shapes_relink, shapes_cons, shapes_cons]
    refine ⟨gap s'.lastBlockSize n (nextAddr none (shapes B)), ?_,
      fun q hq hfreeq => ?_⟩
    · rw [mem_spans, spans]
      exact .inr (.inr List.mem_cons_self)
    · rw [mem_spans, spans] at hq
      rcases hq with hq | rfl | hq
      · exact hle q ((spans_unlisted hlast).mp (.inl hq)) hfreeq
      · cases hfreeq
      · rcases List.mem_cons.mp hq with rfl | hq
        · exact Int.le_refl _
        · exact hle q ((spans_unlisted (p := t.addr) (A := A) hlast).mp
            (.inr hq)) hfreeq

/-- Taking the chosen block as it is, which must be the first on the
list. -/
theorem Tracked.whole (hw : Tracked s (A ++ t :: B)) (h : Chain s.mem (A ++ t :: B))
    (ht : t.listed = true)
    (hunlinks : lastListed NULL A ≠ NULL →
      s.nextFree (lastListed NULL A) ≠ some t.addr)
    (hL' : L' = A ++ ⟨t.addr, NULL, false⟩ :: B)
    (hs' : s'.headFree = (if A.any Lib.Cell.listed then s.headFree else t.link)
      ∧ s'.secondLargest = NULL) :
    Tracked s' L' := by
  obtain ⟨hA, hlink, hB⟩ := Lib.unbroken_append.mp hw.unbroken
  rw [firstListed, if_pos ht] at hA
  rw [if_pos ht] at hlink
  obtain ⟨hfree, hnull⟩ := hs'
  -- the FREE block in front of it would lead to it
  have hnone : NoneListed A := by
    rcases Lib.exists_last A with hnone | ⟨D, q, E, rfl, hq, hE⟩
    · exact hnone
    · exfalso
      have hqc := h.regroup
      rw [Lib.lastListed_split _ hq hE, State.nextFree_eq hqc.mem] at hunlinks
      refine hunlinks hqc.mem.ne_null ?_
      obtain ⟨-, hq', -⟩ := Lib.unbroken_append.mp hA
      rw [hq', if_pos hq, Lib.firstListed_none hE]
  have hfirst : firstListed NULL (⟨t.addr, NULL, false⟩ :: B)
      = firstListed NULL B := by
    rw [firstListed, if_neg Bool.false_ne_true]
  rw [hL']
  constructor
  case unbroken =>
    refine Lib.unbroken_append.mpr ⟨hA.of_none hnone,
      (if_neg Bool.false_ne_true).symm, hB⟩
  case headFree =>
    rw [hfree, Lib.noneListed_iff.mp hnone, if_neg Bool.false_ne_true,
      Lib.firstListed_append, Lib.firstListed_none hnone, hfirst]
    exact hlink
  case cached =>
    intro _ hm
    exact absurd hnull hm

/-- The size of what is left, as the chain has it afterwards. -/
theorem restSize_eq (h : Inv s (A ++ t :: B)) (ht : t.listed = true)
    (hint : IntLast s) (hc : Chosen s c A t B) {n req : Int} (hreq : 0 ≤ req)
    (hreq' : req ≤ 2147483648) (hn : n = t.addr + BLOCK_HEADER + req) :
    restSize (firstAddr B) c.sizeToAllocate req
      = gap (if B = [] then i64 (s.lastBlockSize - req) else s.lastBlockSize) n
        (nextAddr none (shapes B)) := by
  have hsize : c.sizeToAllocate = blockSize s.lastBlockSize t B := by
    rw [hc.size, h.i32_free hint ht]
  unfold restSize
  rw [hsize]
  cases B with
  | nil =>
      have hon : OnChain s t.addr :=
        (onChain_iff h.chain h.head).mpr ⟨t, by simp, rfl⟩
      obtain ⟨hlo, hhi⟩ := hint t.addr hon (State.next_eq h.chain) (by
        rw [State.status_eq h.chain.mem, statusOf, if_pos ht])
      rw [firstAddr_nil, if_neg (not_not.mpr rfl), if_pos rfl, blockSize]
      exact (Lib.i64_of_range (by omega) (by omega)).symm
  | cons b rest =>
      have hb : Holds s.mem b := h.chain.holds b (by simp)
      rw [firstAddr_cons, if_pos hb.ne_null, blockSize, hn]
      unfold BLOCK_HEADER
      simp only [shapes_cons, nextAddr, gap]
      omega

/-- Nothing but the cached pointers has changed. -/
theorem Tracked.recached (hw : Tracked s L)
    (hfree : s'.headFree = s.headFree)
    (hcached : s'.largest ≠ NULL → s'.secondLargest ≠ NULL →
      IsLargest s'.lastBlockSize (shapes L) s'.largest) : Tracked s' L :=
  ⟨hw.unbroken, hfree.trans hw.headFree, hcached⟩

/-- A guarded `Mem_Alloc` keeps the free list whole and the cached largest
block right. -/
theorem Tracked.memAlloc (hw : Tracked s L) (h : Inv s L) (hlo : 1 ≤ size)
    (hok : size ≤ s.remainingSize →
      AllocOk fuel s size ∧ IntLast s ∧ RestIsLargest s size)
    (hrun : Heap.memAlloc fuel s size = some (p, s')) :
    ∃ L', Chain s'.mem L' ∧ s'.head = firstAddr L' ∧ Tracked s' L' := by
  unfold Heap.memAlloc at hrun
  rw [if_neg (not_not.mpr h.ready)] at hrun
  split at hrun
  case isTrue =>
    obtain ⟨-, rfl⟩ := Prod.mk.inj (Option.some.inj hrun)
    exact ⟨L, h.chain, h.head, hw.recached rfl hw.cached⟩
  case isFalse hleft =>
    obtain ⟨hok, hint, hrest⟩ := hok (Int.not_lt.mp hleft)
    have hrounds := hok.rounds
    obtain ⟨hge, hlt, height⟩ := roundTo_block hlo hrounds
    obtain ⟨c, hsearch, hrun⟩ := Option.bind_eq_some_iff.mp hrun
    obtain ⟨hcached, -⟩ := hw.search h hint hsearch
    obtain ⟨-, hchosen⟩ := search_spec h hsearch
    unfold takeBlock at hrun
    simp only [Option.bind_eq_bind] at hrun
    split at hrun
    case isTrue =>
      obtain ⟨-, rfl⟩ := Prod.mk.inj (Option.some.inj hrun)
      exact ⟨L, h.chain, h.head, hw.recached rfl hcached⟩
    case isFalse hsome =>
      obtain ⟨A, t, B, rfl, hc, -⟩ := hchosen hsome
      obtain ⟨next, hnext, hrun⟩ := Option.bind_eq_some_iff.mp hrun
      have hread : s.next c.nextToAllocate = some (firstAddr B) := by
        rw [hc.block]
        exact State.next_eq h.chain
      obtain rfl := Option.some.inj (hnext.symm.trans hread)
      -- the cached pointers are set first, which no header notices
      have hset : ∀ s₀ : State, s₀ = { s with
            largest := c.largest
            secondLargest := c.secondLargest } →
          Chain s₀.mem (A ++ t :: B) ∧ Chosen s₀ c A t B := by
        intro s₀ hs₀
        subst hs₀
        exact ⟨h.chain, hc.free, hc.block, hc.prev, hc.size⟩
      obtain ⟨hchain, hc'⟩ := hset _ rfl
      split at hrun
      case isTrue hsplits =>
        obtain ⟨s₁, hbranch, hrun⟩ := Option.bind_eq_some_iff.mp hrun
        rw [hc.block] at hrun
        obtain ⟨hhi, -⟩ := h.chain.room h.mem_small hc.size hsplits
        obtain ⟨m₁, l, m, rfl, hl, hed⟩ := splitBlock_eq hchain hc'
          (by unfold BLOCK_HEADER; omega) hhi hbranch
        obtain ⟨-, m', rfl, hed'⟩ := handOut_eq hed.chain hrun
        refine ⟨_, hed'.chain, ?_, hw.cut hc.free
          (fun hne => if_neg hne) ?_ rfl ⟨rfl, rfl, rfl, rfl⟩⟩
        · -- the chain starts where it started
          refine h.head.trans ?_
          cases A with
          | nil => rfl
          | cons a rest =>
              unfold firstAddr
              rw [List.map_append, List.map_append, addrs_relink]
              rfl
        · intro hm
          obtain ⟨rfl, hsecond, sizeOfNew, sizeOfSecond, hnew, hsec, hgt⟩ :=
            hl hm
          refine ⟨rfl, ?_⟩
          rw [← restSize_eq h hc.free hint hc (by omega) (by omega) rfl]
          rw [hsecond] at hm
          exact hrest.bound h hc.free hint rfl hsearch hc hsome hsplits rfl hm
            hed.chain hnew hsec hgt
      case isFalse hsplits =>
        obtain ⟨s₁, hbranch, hrun⟩ := Option.bind_eq_some_iff.mp hrun
        rw [hc.block] at hrun
        have heq := takeWhole_eq hchain hc' hbranch
        have hchain₁ : Chain s₁.mem (A ++ t :: B) := heq ▸ h.chain
        obtain ⟨-, m', rfl, hed⟩ := handOut_eq hchain₁ hrun
        subst heq
        have hun := hok.unlinks c _ hsearch hsome hnext hsplits
        rw [hc.prev, hc.block] at hun
        refine ⟨_, hed.chain, ?_, hw.whole h.chain hc.free hun rfl ⟨rfl, rfl⟩⟩
        refine h.head.trans (firstAddr_eq_of_addrs ?_).symm
        rw [List.map_append, List.map_append, List.map_cons, List.map_cons]

end OperatingSystem.Heap
