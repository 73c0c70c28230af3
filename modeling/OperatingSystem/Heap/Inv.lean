/-
The invariant of the allocator, and what coalescing does to it.

# The invariant

`Inv s L`: the chain is `L`; `next_free` of a FREE block, and `head_free`,
is `NULL` or leads to the next FREE block; an ALLOCATED block has none; and
when both cached pointers are set, the larger one is a FREE block of the
chain. The free list may break off early: coalescing into the previous
block loses the rest of it, which costs memory but harms nobody.

`Owns L q` ties it to the client: the bytes of allocation `q` lie between a
block that is ALLOCATED and the next header.

# Shapes

What happens to the links of a block is the thread's business (`Lib`);
cached pointers and allocations only care where headers are and which are
FREE, the `shapes` of a chain.
-/
import OperatingSystem.Heap.Coalesce
import OperatingSystem.Heap.Guard

namespace OperatingSystem.Heap

open Lib (firstListed lastListed lastLink relink Threaded NoneListed)

variable {s s' : State} {A A' B B' L L' : List Block} {t t' : Block}

-- ========================================================= the invariant

/-- Where the headers of a chain are, and which blocks are FREE. -/
def shapes (L : List Block) : List (Int × Bool) :=
  L.map fun b => (b.addr, b.listed)

/-- The allocator's state is in order, `L` being its chain. -/
structure Inv (s : State) (L : List Block) : Prop where
  ready : s.ready
  base : s.mem.base = s.globalHead
  size : s.mem.size = s.actualSize
  small : s.actualSize < 2147483648
  chain : Chain s.mem L
  head : s.head = firstAddr L
  thread : Threaded NULL NULL L
  headFree : s.headFree = NULL ∨ s.headFree = firstListed NULL L
  cached : s.largest ≠ NULL → s.secondLargest ≠ NULL →
    (s.largest, true) ∈ shapes L

/-- Allocation `q`, a payload address and a number of bytes, has an
ALLOCATED block whose next header lies behind these bytes. -/
def Owns (L : List Block) (q : Int × Int) : Prop :=
  ∃ a, (a, false) ∈ shapes L ∧ a + BLOCK_HEADER = q.1
    ∧ ∀ p ∈ shapes L, a < p.1 → q.1 + q.2 ≤ p.1

theorem shapes_append (A B : List Block) :
    shapes (A ++ B) = shapes A ++ shapes B := List.map_append

theorem shapes_cons (t : Block) (B : List Block) :
    shapes (t :: B) = (t.addr, t.listed) :: shapes B := List.map_cons

/-- A header is where a block is. -/
theorem mem_shapes {p : Int × Bool} (h : p ∈ shapes L) :
    ∃ A b B, L = A ++ b :: B ∧ p = (b.addr, b.listed) := by
  obtain ⟨b, hb, rfl⟩ := List.mem_map.mp h
  obtain ⟨A, B, rfl⟩ := List.append_of_mem hb
  exact ⟨A, b, B, rfl, rfl⟩

theorem addrs_relink (a : Int) (A : List Block) :
    (relink a A).map Lib.Cell.addr = A.map Lib.Cell.addr :=
  Lib.map_relink fun b _ => b

theorem shapes_relink (a : Int) (A : List Block) :
    shapes (relink a A) = shapes A :=
  Lib.map_relink Prod.mk

theorem firstAddr_eq_of_addrs (h : L.map Lib.Cell.addr = L'.map Lib.Cell.addr) :
    firstAddr L = firstAddr L' := by
  unfold firstAddr
  rw [h]

/-- One address has one status. -/
theorem Chain.shape_unique {m : Lib.Words} (h : Chain m L) {a : Int}
    {f g : Bool} (hf : (a, f) ∈ shapes L) (hg : (a, g) ∈ shapes L) : f = g := by
  obtain ⟨b, hb, hb'⟩ := List.mem_map.mp hf
  obtain ⟨c, hc, hc'⟩ := List.mem_map.mp hg
  rw [Prod.mk.injEq] at hb' hc'
  obtain rfl := h.eq_of_addr hb hc (hb'.1.trans hc'.1.symm)
  exact hb'.2.symm.trans hc'.2

/-- An allocation survives where its block does and no new header appears
in front of the end of its bytes. -/
theorem Owns.mono {q : Int × Int} (h : Owns L q)
    (hkeep : ∀ a, (a, false) ∈ shapes L → a + BLOCK_HEADER = q.1 →
      (a, false) ∈ shapes L')
    (hsub : ∀ a p, (a, false) ∈ shapes L → a + BLOCK_HEADER = q.1 →
      p ∈ shapes L' → a < p.1 →
      (∃ f, (p.1, f) ∈ shapes L) ∨ q.1 + q.2 ≤ p.1) : Owns L' q := by
  obtain ⟨a, ha, haq, hend⟩ := h
  refine ⟨a, hkeep a ha haq, haq, fun p hp hlt => ?_⟩
  rcases hsub a p ha haq hp hlt with ⟨f, hf⟩ | hhigh
  · exact hend (p.1, f) hf hlt
  · exact hhigh

/-- `s'` has the region of `s`, and `head` is where it was. -/
structure SameRegion (s s' : State) : Prop where
  globalHead : s'.globalHead = s.globalHead
  actualSize : s'.actualSize = s.actualSize
  head : s'.head = s.head
  base : s'.mem.base = s.mem.base
  size : s'.mem.size = s.mem.size

theorem Kept.region (h : Kept s s') : SameRegion s s' :=
  ⟨h.globalHead, h.actualSize, h.head, h.base, h.size⟩

/-- The invariant of a state with another chain in the same region. -/
theorem Inv.rebuild (h : Inv s L) (hr : SameRegion s s')
    (hchain : Chain s'.mem L') (hstart : firstAddr L' = firstAddr L)
    (hthread : Threaded NULL NULL L')
    (hfree : s'.headFree = NULL ∨ s'.headFree = firstListed NULL L')
    (hcached : s'.largest ≠ NULL → s'.secondLargest ≠ NULL →
      (s'.largest, true) ∈ shapes L') : Inv s' L' where
  ready := by
    unfold State.ready
    rw [hr.globalHead]
    exact h.ready
  base := by rw [hr.base, hr.globalHead, h.base]
  size := by rw [hr.size, hr.actualSize, h.size]
  small := by rw [hr.actualSize]; exact h.small
  chain := hchain
  head := by rw [hr.head, hstart, h.head]
  thread := hthread
  headFree := hfree
  cached := hcached

-- ================================================= what a merge preserves

/-- A merge adds no header. -/
theorem Merges.sublist (h : Merges A t B A' t' B') :
    (shapes (A' ++ t' :: B')).Sublist (shapes (A ++ t :: B)) := by
  cases h with
  | neither => exact .refl _
  | next =>
      rw [shapes_append, shapes_append, shapes_cons, shapes_cons, shapes_cons]
      exact List.Sublist.append_left (.cons_cons _ (.cons _ (.refl _))) _
  | prev =>
      rw [List.append_assoc, List.singleton_append, shapes_append,
        shapes_append, shapes_cons, shapes_cons, shapes_cons]
      exact List.Sublist.append_left (.cons_cons _ (.cons _ (.refl _))) _
  | both =>
      rw [List.append_assoc, List.singleton_append, shapes_append,
        shapes_append, shapes_cons, shapes_cons, shapes_cons, shapes_cons]
      exact List.Sublist.append_left
        (.cons_cons _ (.cons _ (.cons _ (.refl _)))) _

/-- The header of `p` is absorbed by a merge of `t`. -/
def Absorbed (A : List Block) (t : Block) (B : List Block)
    (p : Int × Bool) : Prop :=
  (∃ x ∈ B.head?, x.listed = true ∧ p = (x.addr, true))
    ∨ p = (t.addr, t.listed) ∧ ∃ w ∈ A.getLast?, w.listed = true

/-- A merge removes the absorbed headers only. -/
theorem Merges.kept (h : Merges A t B A' t' B') {p : Int × Bool}
    (hp : p ∈ shapes (A ++ t :: B)) :
    p ∈ shapes (A' ++ t' :: B') ∨ Absorbed A t B p := by
  cases h with
  | neither => exact .inl hp
  | next _ _ x _ hA hx =>
      simp only [shapes_append, shapes_cons, List.mem_append,
        List.mem_cons] at hp ⊢
      rcases hp with hp | rfl | rfl | hp
      · exact .inl (.inl hp)
      · exact .inl (.inr (.inl rfl))
      · exact .inr (.inl ⟨x, rfl, hx, by rw [hx]⟩)
      · exact .inl (.inr (.inr hp))
  | prev _ w _ _ hw hB =>
      simp only [shapes_append, shapes_cons, List.mem_append,
        List.mem_cons] at hp ⊢
      rcases hp with (hp | rfl | hp) | rfl | hp
      · exact .inl (.inl hp)
      · exact .inl (.inr (.inl rfl))
      · cases hp
      · exact .inr (.inr ⟨rfl, w, List.getLast?_concat, hw⟩)
      · exact .inl (.inr (.inr hp))
  | both _ w _ x _ hw hx =>
      simp only [shapes_append, shapes_cons, List.mem_append,
        List.mem_cons] at hp ⊢
      rcases hp with (hp | rfl | hp) | rfl | rfl | hp
      · exact .inl (.inl hp)
      · exact .inl (.inr (.inl rfl))
      · cases hp
      · exact .inr (.inr ⟨rfl, w, List.getLast?_concat, hw⟩)
      · exact .inr (.inl ⟨x, rfl, hx, by rw [hx]⟩)
      · exact .inl (.inr (.inr hp))

/-- The chain starts where it started. -/
theorem Merges.firstAddr_eq (h : Merges A t B A' t' B') :
    firstAddr (A' ++ t' :: B') = firstAddr (A ++ t :: B) := by
  cases h with
  | neither => rfl
  | next => cases A <;> rfl
  | prev => cases A' <;> rfl
  | both => cases A' <;> rfl

/-- The merged block's `next_free` is in order, and so is the thread behind
it. -/
theorem Merges.thread_behind (h : Merges A t B A' t' B')
    (hL : Threaded NULL NULL (A ++ t :: B)) :
    (t'.link = NULL ∨ t'.link = firstListed NULL B')
      ∧ Threaded NULL NULL B' := by
  obtain ⟨-, ht, hB⟩ := Lib.threaded_append.mp hL
  cases h with
  | neither => exact ⟨ht.imp_right And.right, hB⟩
  | next => exact ⟨hB.1.imp_right And.right, hB.2⟩
  | prev => exact ⟨ht.imp_right And.right, hB⟩
  | both => exact ⟨hB.1.imp_right And.right, hB.2⟩

/-- The thread in front of a merged FREE block leads to it. -/
theorem Merges.thread_before (h : Merges A t B A' t' B')
    (hL : Threaded NULL NULL (A ++ t :: B)) (ht' : t'.listed = true) :
    Threaded NULL t'.addr A' := by
  obtain ⟨hA, -⟩ := Lib.threaded_append.mp hL
  cases h with
  | neither =>
      rw [firstListed, if_pos ht'] at hA
      exact hA
  | next =>
      rw [firstListed, if_pos (show t.listed = true from ht')] at hA
      exact hA
  | prev _ w _ _ hw =>
      obtain ⟨hA, -⟩ := Lib.threaded_append.mp hA
      rw [firstListed, if_pos hw] at hA
      exact hA
  | both _ w _ x _ hw =>
      obtain ⟨hA, -⟩ := Lib.threaded_append.mp hA
      rw [firstListed, if_pos hw] at hA
      exact hA

/-- What is in front of the merged block was in front of a block before. -/
theorem Merges.front (h : Merges A t B A' t' B') :
    (A = A' ∧ t'.addr = t.addr ∧ t'.listed = t.listed)
      ∨ ∃ w, A = A' ++ [w] ∧ w.listed = true ∧ t'.addr = w.addr
        ∧ t'.listed = true := by
  cases h with
  | neither => exact .inl ⟨rfl, rfl, rfl⟩
  | next => exact .inl ⟨rfl, rfl, rfl⟩
  | prev _ w _ _ hw => exact .inr ⟨w, rfl, hw, rfl, hw⟩
  | both _ w _ x _ hw => exact .inr ⟨w, rfl, hw, rfl, hw⟩

theorem Merges.listed (h : Merges A t B A' t' B') (ht : t.listed = true) :
    t'.listed = true := by
  rcases h.front with ⟨-, -, heq⟩ | ⟨w, -, -, -, heq⟩
  · exact heq.trans ht
  · exact heq

/-- The FREE neighbours on the list are the ones in memory. -/
theorem freeAfter_iff (h : Chain s.mem (A ++ t :: B)) {x : Int} :
    FreeAfter s t.addr x ↔ ∃ b ∈ B.head?, b.listed = true ∧ b.addr = x := by
  unfold FreeAfter
  rw [State.next_eq h]
  cases B with
  | nil =>
      constructor
      · intro hafter
        obtain ⟨hx, hne, -⟩ := hafter
        exact absurd (Option.some.inj hx).symm hne
      · intro hhead
        obtain ⟨b, hb, -⟩ := hhead
        cases hb
  | cons b rest =>
      have hb : Holds s.mem b := h.holds b (by simp)
      have hstatus : s.status b.addr = some FREE ↔ b.listed = true := by
        rw [State.status_eq hb, statusOf]
        cases b.listed <;> decide
      constructor
      · intro hafter
        obtain ⟨hx, -, hfree⟩ := hafter
        obtain rfl := Option.some.inj hx
        exact ⟨b, rfl, hstatus.mp hfree, rfl⟩
      · intro hhead
        obtain ⟨c, hc, hlisted, rfl⟩ := hhead
        obtain rfl := Option.some.inj hc
        exact ⟨rfl, hb.ne_null, hstatus.mpr hlisted⟩

theorem freeBefore_iff (h : Chain s.mem (A ++ t :: B)) {w : Int} :
    FreeBefore s t.addr w
      ↔ ∃ b ∈ A.getLast?, b.listed = true ∧ b.addr = w := by
  unfold FreeBefore
  rw [State.prev_eq h]
  rcases List.eq_nil_or_concat A with rfl | ⟨A, b, rfl⟩
  · constructor
    · intro hbefore
      obtain ⟨hx, hne, -⟩ := hbefore
      exact absurd (Option.some.inj hx).symm hne
    · intro hlast
      obtain ⟨b, hb, -⟩ := hlast
      cases hb
  · rw [List.concat_eq_append] at h ⊢
    have hb : Holds s.mem b := h.holds b (by simp)
    have hstatus : s.status b.addr = some FREE ↔ b.listed = true := by
      rw [State.status_eq hb, statusOf]
      cases b.listed <;> decide
    rw [lastAddr_concat, List.getLast?_concat]
    constructor
    · intro hbefore
      obtain ⟨hx, -, hfree⟩ := hbefore
      obtain rfl := Option.some.inj hx
      exact ⟨b, rfl, hstatus.mp hfree, rfl⟩
    · intro hlast
      obtain ⟨c, hc, hlisted, rfl⟩ := hlast
      obtain rfl := Option.some.inj hc
      exact ⟨rfl, hb.ne_null, hstatus.mpr hlisted⟩

/-- Where the guard holds, a merge does not absorb the cached largest
block. -/
theorem not_absorbed (h : Chain s.mem (A ++ t :: B))
    (hstale : ¬StaleCache s t.addr) (hsec : s.secondLargest ≠ NULL)
    {f : Bool} : ¬Absorbed A t B (s.largest, f) := by
  intro habsorbed
  rcases habsorbed with ⟨x, hx, hfree, heq⟩ | ⟨heq, w, hw, hfree⟩
  · refine hstale ⟨hsec, .inl ?_⟩
    exact (freeAfter_iff h).mpr ⟨x, hx, hfree, (congrArg Prod.fst heq).symm⟩
  · refine hstale ⟨hsec, .inr ⟨(congrArg Prod.fst heq).symm, w.addr, ?_⟩⟩
    exact (freeBefore_iff h).mpr ⟨w, hw, hfree, rfl⟩

/-- Where the guard holds, the cached largest block is still there after a
merge, if both pointers are still set. -/
theorem Inv.cached_kept (h : Inv s (A ++ t :: B))
    (hstale : ¬StaleCache s t.addr) (hm : Merges A t B A' t' B')
    (hkept : Kept s s') (hl : s'.largest ≠ NULL)
    (hsec : s'.secondLargest ≠ NULL) :
    (s'.largest, true) ∈ shapes (A' ++ t' :: B') := by
  have hl' : s'.largest = s.largest :=
    hkept.largest.resolve_right hl
  have hsec' : s'.secondLargest = s.secondLargest :=
    hkept.secondLargest.resolve_right hsec
  rw [hl'] at hl ⊢
  rw [hsec'] at hsec
  exact (hm.kept (h.cached hl hsec)).resolve_right
    (not_absorbed h.chain hstale hsec)

/-- The region is the same, and the recorded sizes are these. -/
structure Resized (s s' : State) (lastBlockSize sizeOfLastAllocate : Int) :
    Prop where
  globalHead : s'.globalHead = s.globalHead
  actualSize : s'.actualSize = s.actualSize
  lastBlockSize : s'.lastBlockSize = lastBlockSize
  sizeOfLastAllocate : s'.sizeOfLastAllocate = sizeOfLastAllocate

-- ====================================================== the global pass

/-- A merge of a FREE block keeps the thread. -/
theorem Merges.threaded (h : Merges A t B A' t' B') (ht : t.listed = true)
    (hL : Threaded NULL NULL (A ++ t :: B)) :
    Threaded NULL NULL (A' ++ t' :: B') := by
  have ht' := h.listed ht
  obtain ⟨hlink, hB'⟩ := h.thread_behind hL
  refine Lib.threaded_append.mpr ⟨?_, hlink.imp_right fun hl => ⟨ht', hl⟩, hB'⟩
  rw [firstListed, if_pos ht']
  exact h.thread_before hL ht'

/-- The free list starts where it started. -/
theorem Merges.firstListed_eq (h : Merges A t B A' t' B')
    (ht : t.listed = true) : firstListed NULL (A' ++ t' :: B')
      = firstListed NULL (A ++ t :: B) := by
  rw [Lib.firstListed_append, Lib.firstListed_append, firstListed,
    if_pos (h.listed ht), firstListed, if_pos ht]
  rcases h.front with ⟨rfl, heq, -⟩ | ⟨w, rfl, hw, heq, -⟩
  · rw [heq]
  · rw [Lib.firstListed_append, firstListed, if_pos hw, heq]

/-- `my_coalesce` on a FREE block keeps the invariant, where it drops no
block that is cached. -/
theorem Inv.coalesce (h : Inv s (A ++ t :: B)) (ht : t.listed = true)
    (hstale : ¬StaleCache s t.addr) :
    ∃ A' t' B' s', Merges A t B A' t' B' ∧ t'.listed = true
      ∧ myCoalesce s t.addr = some (t'.addr, s')
      ∧ Inv s' (A' ++ t' :: B')
      ∧ Resized s s' (coalescedSize s.lastBlockSize A t B B')
        s.sizeOfLastAllocate
      ∧ Kept s s' := by
  obtain ⟨A', t', B', s', hm, hrun, hkept, hc, hlast⟩ := myCoalesce_eq h.chain
  refine ⟨A', t', B', s', hm, hm.listed ht, hrun, ?_,
    ⟨hkept.globalHead, hkept.actualSize, hlast, hkept.sizeOfLastAllocate⟩,
    hkept⟩
  refine h.rebuild hkept.region hc hm.firstAddr_eq (hm.threaded ht h.thread) ?_
    (h.cached_kept hstale hm hkept)
  rw [hkept.headFree, hm.firstListed_eq ht]
  exact h.headFree

/-- No allocation is lost in a merge of a FREE block. -/
theorem Merges.owns (h : Merges A t B A' t' B') (ht : t.listed = true)
    {q : Int × Int} (hq : Owns (A ++ t :: B) q) : Owns (A' ++ t' :: B') q := by
  refine hq.mono (fun a ha _ => ?_) fun a p _ _ hp _ =>
    .inl ⟨p.2, h.sublist.subset hp⟩
  rcases h.kept ha with hin | ⟨x, -, -, heq⟩ | ⟨heq, -⟩
  · exact hin
  · exact absurd (congrArg Prod.snd heq) Bool.false_ne_true
  · rw [ht] at heq
    exact absurd (congrArg Prod.snd heq) Bool.false_ne_true

/-- A listed address is a FREE block's. -/
theorem exists_of_first {a : Int} (hne : a ≠ NULL)
    (ha : a = NULL ∨ a = firstListed NULL B) :
    ∃ D c E, B = D ++ c :: E ∧ c.listed = true ∧ NoneListed D
      ∧ a = c.addr := by
  have ha := ha.resolve_left hne
  rcases Lib.exists_first B with hnone | ⟨D, c, E, rfl, hc, hD⟩
  · rw [Lib.firstListed_none hnone] at ha
    exact absurd ha hne
  · rw [Lib.firstListed_split hc hD] at ha
    exact ⟨D, c, E, rfl, hc, hD, ha⟩

/-- The pass rule: what `my_coalesce` preserves on each FREE block it is
called on, `coalesce_all` preserves. The pass visits blocks of the chain
only, because `next_free` leads to one or is `NULL`. -/
theorem coalesceFrom_rule {I : State → List Block → Prop}
    {ok : State → Int → Prop} (hinv : ∀ {s L}, I s L → Inv s L)
    (hstep : ∀ {s A t B}, I s (A ++ t :: B) → t.listed = true →
      ¬StaleCache s t.addr → ok s t.addr → ∃ A' t' B' s',
        myCoalesce s t.addr = some (t'.addr, s') ∧ I s' (A' ++ t' :: B')) :
    ∀ (fuel : Nat) (temp : Int) (s s' : State) (L : List Block), I s L →
      (temp = NULL ∨ ∃ f, (temp, f) ∈ shapes L) →
      (∀ c ∈ passCalls fuel temp s, ¬StaleCache c.1 c.2 ∧ ok c.1 c.2) →
      coalesceFrom fuel temp s = some s' → ∃ L', I s' L' := by
  intro fuel
  induction fuel with
  | zero => intro temp s s' L _ _ _ hrun; cases hrun
  | succ fuel ih =>
      intro temp s s' L hI htemp hok hrun
      rw [coalesceFrom] at hrun
      rw [passCalls] at hok
      by_cases hnull : temp = NULL
      · rw [if_pos hnull] at hrun
        exact ⟨L, Option.some.inj hrun ▸ hI⟩
      rw [if_neg hnull] at hrun hok
      obtain ⟨f, hf⟩ := htemp.resolve_left hnull
      obtain ⟨A, t, B, rfl, heq⟩ := mem_shapes hf
      obtain ⟨rfl, rfl⟩ := Prod.mk.inj heq
      have hc := (hinv hI).chain
      rw [State.status_eq hc.mem] at hrun hok
      simp only [Option.bind_eq_bind, Option.bind_some] at hrun hok
      cases ht : t.listed with
      | true =>
          rw [statusOf, if_pos ht, if_pos rfl] at hrun hok
          obtain ⟨hstale, hokt⟩ := hok _ List.mem_cons_self
          obtain ⟨A', t', B', s₁, hcall, hI'⟩ := hstep hI ht hstale hokt
          have hnext := State.nextFree_eq (hinv hI').chain.mem
          rw [hcall] at hrun hok
          simp only [Option.bind_some, hnext] at hrun hok
          refine ih t'.link s₁ s' _ hI' ?_
            (fun c hc => hok c (List.mem_cons_of_mem _ hc)) hrun
          by_cases hlink : t'.link = NULL
          · exact .inl hlink
          · obtain ⟨-, ht', -⟩ := Lib.threaded_append.mp (hinv hI').thread
            obtain ⟨D, c, E, rfl, -, -, heq⟩ := exists_of_first hlink
              (ht'.imp_right And.right)
            refine .inr ⟨c.listed, ?_⟩
            rw [heq]
            simp [shapes]
      | false =>
          have htaken : statusOf t ≠ FREE := by
            rw [statusOf, ht]
            decide
          have hnext := State.nextFree_eq hc.mem
          rw [if_neg htaken] at hrun hok
          simp only [Option.bind_some, hnext] at hrun hok
          have hlink : t.link = NULL := by
            obtain ⟨-, ht', -⟩ := Lib.threaded_append.mp (hinv hI).thread
            refine ht'.resolve_right fun h => ?_
            rw [ht] at h
            exact absurd h.1 Bool.false_ne_true
          exact ih t.link s s' _ hI (.inl hlink) hok hrun

end OperatingSystem.Heap
