/-
`Mem_Alloc` is a worst-fit allocator.

With what `Mem_Free` does to the free list and the cached pointers, a
guarded run keeps both in order (`Tracked`), and `Mem_Alloc` takes a largest
FREE block whichever way it goes.

A merge changes the size of one block. A freed block is compared with the
cached ones afterwards; a pass compares nothing, so the guard does.
-/
import OperatingSystem.Heap.Steady
import OperatingSystem.Heap.Tracked

namespace OperatingSystem.Heap

open Lib (Words i32 i64 Reach Anything firstListed lastListed lastLink relink
  Threaded NoneListed Unbroken)

variable {s s' s₁ s₂ : State} {A A' B B' L L' : List Block} {t t' : Block}
  {c : Config} {fuel : Nat} {p q size coalesce : Int} {flag : Bool}

-- =============================================================== the links

/-- Around a merged block the list is whole. -/
theorem Merges.unbroken_around (h : Merges A t B A' t' B')
    (hL : Unbroken NULL NULL (A ++ t :: B)) :
    (∃ after, Unbroken NULL after A') ∧ Unbroken NULL NULL B' := by
  obtain ⟨hA, -, hB⟩ := Lib.unbroken_append.mp hL
  cases h with
  | neither => exact ⟨⟨_, hA⟩, hB⟩
  | next => exact ⟨⟨_, hA⟩, hB.2⟩
  | prev => exact ⟨⟨_, (Lib.unbroken_append.mp hA).1⟩, hB⟩
  | both => exact ⟨⟨_, (Lib.unbroken_append.mp hA).1⟩, hB.2⟩

/-- A merge of a FREE block keeps the list whole. -/
theorem Merges.unbroken (h : Merges A t B A' t' B') (ht : t.listed = true)
    (hL : Unbroken NULL NULL (A ++ t :: B)) :
    Unbroken NULL NULL (A' ++ t' :: B') := by
  obtain ⟨hA, hlink, hB⟩ := Lib.unbroken_append.mp hL
  rw [if_pos ht] at hlink
  rw [firstListed, if_pos ht] at hA
  cases h with
  | neither => exact hL
  | next _ _ x _ _ hx =>
      obtain ⟨hx', hB⟩ := hB
      rw [if_pos hx] at hx'
      refine Lib.unbroken_append.mpr ⟨?_, ?_, hB⟩
      · rw [firstListed, if_pos (show t.listed = true from ht)]
        exact hA
      · exact hx'.trans (if_pos ht).symm
  | prev _ w _ _ hw =>
      obtain ⟨hA', -⟩ := Lib.unbroken_append.mp hA
      rw [firstListed, if_pos hw] at hA'
      refine Lib.unbroken_append.mpr ⟨?_, ?_, hB⟩
      · rw [firstListed, if_pos (show w.listed = true from hw)]
        exact hA'
      · exact hlink.trans (if_pos hw).symm
  | both _ w _ x _ hw hx =>
      obtain ⟨hx', hB⟩ := hB
      rw [if_pos hx] at hx'
      obtain ⟨hA', -⟩ := Lib.unbroken_append.mp hA
      rw [firstListed, if_pos hw] at hA'
      refine Lib.unbroken_append.mpr ⟨?_, ?_, hB⟩
      · rw [firstListed, if_pos (show w.listed = true from hw)]
        exact hA'
      · exact hx'.trans (if_pos hw).symm

/-- The previous block is not cached as the largest one any longer once it
has absorbed a block. -/
theorem myCoalesce_forgets (hrun : myCoalesce s p = some (q, s'))
    (hne : q ≠ p) (hq : q ≠ NULL) : s'.largest ≠ q := by
  unfold myCoalesce at hrun
  split at hrun
  case isTrue hnull =>
    obtain ⟨rfl, -⟩ := Prod.mk.inj (Option.some.inj hrun)
    exact absurd rfl hq
  case isFalse =>
    simp only [Option.bind_eq_bind, Option.bind_eq_some_iff] at hrun
    obtain ⟨curSize, -, s₁, -, next, -, prev, -, curSizePrev, -, hrun⟩ := hrun
    unfold absorbIntoPrev at hrun
    simp only [Option.bind_eq_bind] at hrun
    obtain ⟨prev', -, hrun⟩ := Option.bind_eq_some_iff.mp hrun
    split at hrun
    case isTrue => exact absurd (Prod.mk.inj (Option.some.inj hrun)).1.symm hne
    case isFalse =>
      obtain ⟨status, -, hrun⟩ := Option.bind_eq_some_iff.mp hrun
      split at hrun
      case isTrue =>
        exact absurd (Prod.mk.inj (Option.some.inj hrun)).1.symm hne
      case isFalse =>
        simp only [Option.bind_eq_some_iff] at hrun
        obtain ⟨nextFree, -, s₂, -, next', -, s₃, -, hrun⟩ := hrun
        obtain ⟨rfl, rfl⟩ := Prod.mk.inj (Option.some.inj hrun)
        have hgrow : (growLast (forget s₃ prev') next' curSizePrev).largest
            = (forget s₃ prev').largest := by
          unfold growLast
          split <;> rfl
        rw [hgrow]
        unfold forget
        split
        case isTrue => exact hq.symm
        case isFalse hnot =>
          have hother : s₃.largest ≠ prev' := by
            intro heq
            exact hnot ⟨heq ▸ hq, heq.symm⟩
          split
          · exact hother
          · exact hother

theorem coalesceFreed_forgets
    (hrun : coalesceFreed s p coalesce = some (q, flag, s')) (hne : q ≠ p)
    (hq : q ≠ NULL) : s'.largest ≠ q := by
  unfold coalesceFreed at hrun
  split at hrun
  case isTrue =>
    simp only [Option.bind_eq_bind, Option.bind_eq_some_iff] at hrun
    obtain ⟨before, -, ⟨merged, s₁⟩, hmerge, after, -, hrun⟩ := hrun
    obtain ⟨rfl, hrest⟩ := Prod.mk.inj (Option.some.inj hrun)
    obtain ⟨-, rfl⟩ := Prod.mk.inj hrest
    exact myCoalesce_forgets hmerge hne hq
  case isFalse => exact absurd (Prod.mk.inj (Option.some.inj hrun)).1.symm hne

-- =============================================================== the sizes

theorem coalescedSize_of_behind {last : Int} (h : B' ≠ []) :
    coalescedSize last A t B B' = last := if_neg h

/-- A merge that the previous block has no part in makes a block grow, if
the recorded size is in range. -/
theorem Merges.size_le (h : Merges A t B A' t' B') (hinv : Inv s (A ++ t :: B))
    (hrange : InRange s t.addr) (haddr : t'.addr = t.addr) :
    blockSize s.lastBlockSize t B
      ≤ blockSize (coalescedSize s.lastBlockSize A t B B') t' B' := by
  obtain ⟨hlo, hhi⟩ := hrange
  have hc := hinv.chain
  cases h with
  | neither _ _ _ hA hB =>
      cases B with
      | nil =>
          rw [coalescedSize_taken hA, blockSize, blockSize,
            Lib.i64_of_range (by omega) (by omega)]
          omega
      | cons b rest => exact Int.le_refl _
  | next _ _ x _ hA hx =>
      have hbehind := hc.behind x List.mem_cons_self
      have hhigh := (hc.holds x (by simp)).high
      have hsmall := hinv.mem_small
      have hlow := hc.mem.low
      cases B' with
      | nil =>
          rw [coalescedSize_taken hA, blockSize, blockSize,
            Lib.i64_of_range (by omega) (by omega)]
          omega
      | cons b rest =>
          have hxb := hc.shift.behind b List.mem_cons_self
          simp only [blockSize]
          omega
  | prev _ w =>
      have := hc.before w (by simp)
      dsimp only at haddr
      omega
  | both _ w =>
      have := hc.before w (by simp)
      dsimp only at haddr
      omega

/-- `my_coalesce` in a pass keeps the free list whole, and where the guard
holds the cached largest block is still the largest. -/
theorem Tracked.merged (hw : Tracked s (A ++ t :: B))
    (h : Inv s (A ++ t :: B)) (ht : t.listed = true)
    (hstale : ¬StaleCache s t.addr) (hrange : InRange s t.addr)
    (hout : ¬Outgrows s t.addr) (hm : Merges A t B A' t' B')
    (hrun : myCoalesce s t.addr = some (t'.addr, s')) (hkept : Kept s s')
    (hc : Chain s'.mem (A' ++ t' :: B'))
    (hlast : s'.lastBlockSize = coalescedSize s.lastBlockSize A t B B') :
    Tracked s' (A' ++ t' :: B') := by
  refine ⟨hm.unbroken ht hw.unbroken, ?_, fun hl hsec => ?_⟩
  · rw [hkept.headFree, hm.firstListed_eq ht]
    exact hw.headFree
  have hl' := hkept.largest.resolve_right hl
  have hsec' := hkept.secondLargest.resolve_right hsec
  obtain ⟨k, hin, hmax⟩ := hw.cached (hl' ▸ hl) (hsec' ▸ hsec)
  have hbehind : B' ≠ [] → s'.lastBlockSize = s.lastBlockSize := fun hne =>
    hlast.trans (coalescedSize_of_behind hne)
  have haround : ∀ q : Span, q ∈ spans s'.lastBlockSize (some t'.addr)
        (shapes A') ∨ q ∈ spans s'.lastBlockSize none (shapes B') →
      q.free = true → q.size ≤ k := fun q hq hfree =>
    hmax q (hm.spans_around hbehind hq) hfree
  have hmerged : (⟨t'.addr, true, blockSize s'.lastBlockSize t' B'⟩ : Span)
      ∈ spans s'.lastBlockSize none (shapes (A' ++ t' :: B')) :=
    span_iff.mpr ⟨A', t', B', rfl, by rw [hm.listed ht]⟩
  -- all but the merged block are no larger than the cached one was
  have hbound : ∀ k', k ≤ k' → blockSize s'.lastBlockSize t' B' ≤ k' →
      ∀ q ∈ spans s'.lastBlockSize none (shapes (A' ++ t' :: B')),
        q.free = true → q.size ≤ k' := by
    intro k' hk hk' q hq hfree
    rw [shapes_append, shapes_cons, mem_spans] at hq
    rcases hq with hq | rfl | hq
    · exact Int.le_trans (haround q (.inl hq) hfree) hk
    · dsimp only
      rw [← blockSize_eq_gap]
      exact hk'
    · exact Int.le_trans (haround q (.inr hq) hfree) hk
  by_cases heq : s'.largest = t'.addr
  · -- the cached block itself has grown
    have haddr : t'.addr = t.addr := by
      by_contra hne
      exact myCoalesce_forgets hrun hne hc.mem.ne_null heq
    have hsize : k = blockSize s.lastBlockSize t B := by
      obtain ⟨hread, -⟩ := h.chain.read_span hin
      dsimp only at hread
      rw [← hl', heq, haddr, getBlockSize_eq h.chain] at hread
      exact (Option.some.inj hread).symm
    have hle := hm.size_le h hrange haddr
    rw [← hlast, ← hsize] at hle
    rw [heq]
    exact ⟨_, hmerged, hbound _ hle (Int.le_refl _)⟩
  · have hstays : (⟨s'.largest, true, k⟩ : Span)
        ∈ spans s'.lastBlockSize none (shapes (A' ++ t' :: B')) := by
      rw [shapes_append, shapes_cons, mem_spans]
      rw [hl'] at heq ⊢
      exact (hm.span_kept hbehind hin heq
        (not_absorbed h.chain hstale (hsec' ▸ hsec))).imp_right .inr
    refine ⟨k, hstays, hbound k (Int.le_refl _) ?_⟩
    by_contra hgt
    refine hout ⟨t'.addr, s', hrun, hl, hsec, k, _,
      (hc.read_span hstays).1, getBlockSize_eq hc, ?_⟩
    omega

-- ========================================================== a freed block

/-- What a call does to the sizes of the blocks around. -/
theorem MergesIf.spans_around {last last' : Int}
    (h : MergesIf coalesce A t B A' t' B') (hlast : B' ≠ [] → last' = last)
    {q : Span} (hq : q ∈ spans last' (some t'.addr) (shapes A')
      ∨ q ∈ spans last' none (shapes B')) :
    q ∈ spans last none (shapes (A ++ t :: B)) := by
  rcases h with ⟨-, rfl, rfl, rfl⟩ | ⟨-, hm⟩
  · rw [shapes_append, shapes_cons, mem_spans]
    rw [spans_some last' last, spans_behind last last'] at hq
    · exact hq.imp_right .inr
    · intro hne
      exact hlast fun hnil => hne (by rw [hnil]; rfl)
  · exact hm.spans_around hlast hq

theorem MergesIf.span_kept {last last' : Int}
    (h : MergesIf coalesce A t B A' t' B') (hlast : B' ≠ [] → last' = last)
    {q : Span} (hq : q ∈ spans last none (shapes (A ++ t :: B)))
    (hne : q.addr ≠ t'.addr)
    (hin : coalesce ≠ 0 → ¬Absorbed A t B (q.addr, q.free)) :
    q ∈ spans last' (some t'.addr) (shapes A')
      ∨ q ∈ spans last' none (shapes B') := by
  rcases h with ⟨-, rfl, rfl, rfl⟩ | ⟨hz, hm⟩
  · rw [shapes_append, shapes_cons, mem_spans] at hq
    rw [spans_some last' last, spans_behind last last']
    · exact hq.imp_right fun hq => hq.resolve_left fun heq => hne (by rw [heq])
    · intro hne
      exact hlast fun hnil => hne (by rw [hnil]; rfl)
  · exact hm.span_kept hlast hq hne (hin hz)

theorem MergesIf.unbroken_around (h : MergesIf coalesce A t B A' t' B')
    (hL : Unbroken NULL NULL (A ++ t :: B)) :
    (∃ after, Unbroken NULL after A') ∧ Unbroken NULL NULL B' := by
  rcases h with ⟨-, rfl, rfl, rfl⟩ | ⟨-, hm⟩
  · obtain ⟨hA, -, hB⟩ := Lib.unbroken_append.mp hL
    exact ⟨⟨_, hA⟩, hB⟩
  · exact hm.unbroken_around hL

/-- Giving an ALLOCATED block back changes no FREE block's size. -/
theorem Tracked.credited (hw : Tracked s (A ++ t :: B)) (hs : Credited s s₁)
    (ht : t.listed = false) (hlast : B ≠ [] →
      s₁.lastBlockSize = s.lastBlockSize) : Tracked s₁ (A ++ t :: B) := by
  refine hw.recached hs.headFree fun hl hsec => ?_
  rw [hs.largest] at hl ⊢
  rw [hs.secondLargest] at hsec
  obtain ⟨k, hin, hmax⟩ := hw.cached hl hsec
  rw [shapes_append, shapes_cons] at hin hmax ⊢
  refine ⟨k, ?_, fun q hq hfree => ?_⟩
  · rw [mem_spans] at hin ⊢
    rcases hin with hin | heq | hin
    · exact ((spans_unlisted hlast).mpr (.inl hin)).imp_right .inr
    · rw [ht] at heq
      cases congrArg Span.free heq
    · exact ((spans_unlisted (p := t.addr) (A := A) hlast).mpr
        (.inr hin)).imp_right .inr
  · rw [mem_spans] at hq
    have hq' : q ∈ spans s₁.lastBlockSize (some t.addr) (shapes A)
        ∨ q ∈ spans s₁.lastBlockSize none (shapes B) := by
      rcases hq with hq | rfl | hq
      · exact .inl hq
      · rw [ht] at hfree
        cases hfree
      · exact .inr hq
    refine hmax q ?_ hfree
    rw [mem_spans]
    exact ((spans_unlisted hlast).mp hq').imp_right .inr

/-- The link that the freed block gets leads to the next FREE block. -/
theorem MergesIf.link_eq (hm : MergesIf coalesce A t B A' t' B')
    (hw : Tracked s (A ++ t :: B)) (h : Inv s (A ++ t :: B))
    (ht : t.listed = false)
    (hguard : coalesce ≠ 0 → ¬DanglingLink s t.addr ∧ ¬BreaksOff s t.addr) :
    (if t'.addr = t.addr then lastLink s.headFree A' else t'.link)
      = firstListed NULL B' := by
  have hc := h.chain
  have hfirst : firstListed NULL (t :: B) = firstListed NULL B := by
    rw [firstListed, ht, if_neg Bool.false_ne_true]
  obtain ⟨hA, hlink, hB⟩ := Lib.unbroken_append.mp hw.unbroken
  rw [hfirst] at hA
  rw [ht, if_neg Bool.false_ne_true] at hlink
  have hleads : lastLink s.headFree A = firstListed NULL B := by
    refine hA.lastLink ?_
    rw [← hfirst, ← Lib.firstListed_append]
    exact hw.headFree
  rcases hm with ⟨-, rfl, rfl, rfl⟩ | ⟨hz, hm⟩
  · rw [if_pos rfl]
    exact hleads
  obtain ⟨hdangling, hbreaks⟩ := hguard hz
  cases hm with
  | neither =>
      rw [if_pos rfl]
      exact hleads
  | next _ _ x _ hA' hx =>
      -- the list leads to the block that is absorbed
      exfalso
      refine hdangling ⟨x.addr, ?_, ?_, ?_⟩
      · exact (freeAfter_iff hc).mpr ⟨x, rfl, hx, rfl⟩
      · intro hbefore
        obtain ⟨w, hw'⟩ := hbefore
        obtain ⟨b, hb, hlisted, -⟩ := (freeBefore_iff hc).mp hw'
        rw [hA' b hb] at hlisted
        cases hlisted
      · rw [firstListed, if_pos hx] at hleads
        exact hleads ▸ leadsTo_of_lastLink hc
  | prev _ w _ _ hw' hB' =>
      have hbefore := hc.before w (by simp)
      rw [if_neg (by dsimp only; omega)]
      dsimp only
      rw [hlink]
      rcases Lib.exists_first B with hnone | ⟨D, d, E, rfl, hd, -⟩
      · exact (Lib.firstListed_none hnone).symm
      · exfalso
        refine hbreaks ⟨⟨w.addr, ?_⟩, ?_, d.addr, ?_, ?_, ?_⟩
        · exact (freeBefore_iff hc).mpr ⟨w, List.getLast?_concat, hw', rfl⟩
        · intro hafter
          obtain ⟨x, hx⟩ := hafter
          obtain ⟨b, hb, hlisted, -⟩ := (freeAfter_iff hc).mp hx
          rw [hB' b hb] at hlisted
          cases hlisted
        · exact (onChain_iff hc h.head).mpr ⟨d, by simp, rfl⟩
        · have := hc.behind d (by simp)
          omega
        · have hd' : Holds s.mem d := hc.holds d (by simp)
          rw [State.status_eq hd', statusOf, if_pos hd]
  | both _ w _ x _ hw' hx =>
      have hbefore := hc.before w (by simp)
      rw [if_neg (by dsimp only; omega)]
      dsimp only
      rw [hB.1, if_pos hx]

/-- The freed block takes its place among the cached ones. -/
theorem recache_largest (hrun : recache s p = some s') :
    s'.headFree = s.headFree ∧ s'.lastBlockSize = s.lastBlockSize
      ∧ s'.head = s.head ∧ s'.mem = s.mem
      ∧ (s'.largest ≠ NULL → s'.secondLargest ≠ NULL →
        s.largest ≠ NULL ∧ s.secondLargest ≠ NULL
        ∧ ∃ k k', getBlockSize s p = some k'
          ∧ getBlockSize s s.largest = some k
          ∧ (k' > k ∧ s'.largest = p ∨ k' ≤ k ∧ s'.largest = s.largest)) := by
  unfold recache at hrun
  split at hrun
  case isTrue hboth =>
    simp only [Option.bind_eq_bind, Option.bind_eq_some_iff] at hrun
    obtain ⟨k', hk', k, hk, hrun⟩ := hrun
    split at hrun
    case isTrue hgt =>
      obtain rfl := Option.some.inj hrun
      exact ⟨rfl, rfl, rfl, rfl, fun _ _ =>
        ⟨hboth.1, hboth.2, k, k', hk', hk, .inl ⟨hgt, rfl⟩⟩⟩
    case isFalse hle =>
      simp only [Option.bind_eq_some_iff] at hrun
      obtain ⟨sizeOfSecond, -, hrun⟩ := hrun
      obtain rfl := Option.some.inj hrun
      have hle := Int.not_lt.mp hle
      split
      · exact ⟨rfl, rfl, rfl, rfl, fun _ _ =>
          ⟨hboth.1, hboth.2, k, k', hk', hk, .inr ⟨hle, rfl⟩⟩⟩
      · exact ⟨rfl, rfl, rfl, rfl, fun _ _ =>
          ⟨hboth.1, hboth.2, k, k', hk', hk, .inr ⟨hle, rfl⟩⟩⟩
  case isFalse hnot =>
    obtain rfl := Option.some.inj hrun
    exact ⟨rfl, rfl, rfl, rfl, fun hl hsec => absurd ⟨hl, hsec⟩ hnot⟩

/-- The cached pointers while a freed block is not ranked yet: the cached
largest block is another one, and the largest of the others. -/
theorem MergesIf.cached (hm : MergesIf coalesce A t B A' t' B')
    (hw : Tracked s (A ++ t :: B)) (h : Chain s.mem (A ++ t :: B))
    (ht : t.listed = false) (hstale : coalesce ≠ 0 → ¬StaleCache s t.addr)
    (hrun : coalesceFreed s t.addr coalesce = some (t'.addr, flag, s'))
    (hkept : Kept s s') (hne : t'.addr ≠ NULL)
    (hlast : B' ≠ [] → s'.lastBlockSize = s.lastBlockSize)
    (hl : s'.largest ≠ NULL) (hsec : s'.secondLargest ≠ NULL) :
    ∃ k, (⟨s'.largest, true, k⟩ ∈ spans s'.lastBlockSize (some t'.addr)
          (shapes A') ∨ ⟨s'.largest, true, k⟩ ∈ spans s'.lastBlockSize none
          (shapes B'))
      ∧ ∀ q : Span, q ∈ spans s'.lastBlockSize (some t'.addr) (shapes A')
          ∨ q ∈ spans s'.lastBlockSize none (shapes B') →
        q.free = true → q.size ≤ k := by
  have hl' := hkept.largest.resolve_right hl
  have hsec' := hkept.secondLargest.resolve_right hsec
  obtain ⟨k, hin, hmax⟩ := hw.cached (hl' ▸ hl) (hsec' ▸ hsec)
  refine ⟨k, ?_, fun q hq hfree => hmax q (hm.spans_around hlast hq) hfree⟩
  -- it is neither the freed block nor the one that has absorbed it
  have hother : s'.largest ≠ t'.addr := by
    by_cases haddr : t'.addr = t.addr
    · intro heq
      have hfree : (t.addr, true) ∈ shapes (A ++ t :: B) := by
        have hmem := mem_shapes_of_span hin
        dsimp only at hmem
        rw [← hl', heq, haddr] at hmem
        exact hmem
      have htaken : (t.addr, false) ∈ shapes (A ++ t :: B) := by
        simp [shapes, ht]
      cases h.shape_unique hfree htaken
    · exact coalesceFreed_forgets hrun haddr hne
  rw [hl'] at hother ⊢
  exact hm.span_kept hlast hin hother fun hz =>
    not_absorbed h (hstale hz) (hsec' ▸ hsec)

/-- The larger of a FREE block and the largest of the others is the
largest. -/
theorem isLargest_of_compared {last a c l k : Int} {X Y : List (Int × Bool)}
    (hin : ⟨c, true, k⟩ ∈ spans last (some a) X
      ∨ ⟨c, true, k⟩ ∈ spans last none Y)
    (hmax : ∀ q : Span, q ∈ spans last (some a) X ∨ q ∈ spans last none Y →
      q.free = true → q.size ≤ k)
    (hwhich : gap last a (nextAddr none Y) > k ∧ l = a
      ∨ gap last a (nextAddr none Y) ≤ k ∧ l = c) :
    IsLargest last (X ++ (a, true) :: Y) l := by
  have hbound : ∀ b, k ≤ b → gap last a (nextAddr none Y) ≤ b →
      ∀ q ∈ spans last none (X ++ (a, true) :: Y), q.free = true →
        q.size ≤ b := by
    intro b hb hb' q hq hfree
    rcases mem_spans.mp hq with hq | rfl | hq
    · exact Int.le_trans (hmax q (.inl hq) hfree) hb
    · exact hb'
    · exact Int.le_trans (hmax q (.inr hq) hfree) hb
  rcases hwhich with ⟨hgt, rfl⟩ | ⟨hle, rfl⟩
  · exact ⟨_, mem_spans.mpr (.inr (.inl rfl)),
      hbound _ (Int.le_of_lt hgt) (Int.le_refl _)⟩
  · exact ⟨k, mem_spans.mpr (hin.imp_right .inr),
      hbound _ (Int.le_refl _) hle⟩

/-- `Mem_Free` on a block. -/
theorem Tracked.freeBlock (hw : Tracked s (A ++ t :: B))
    (h : Inv s (A ++ t :: B)) (ht : t.listed = false) {r : Int}
    (hguard : coalesce ≠ 0 → ∀ s₁, freedState s t.addr = some s₁ →
      ¬StaleCache s₁ t.addr ∧ ¬DanglingLink s₁ t.addr ∧ InRange s₁ t.addr
        ∧ ¬BreaksOff s₁ t.addr)
    (hrun : Heap.freeBlock fuel s t.addr coalesce = some (r, s')) :
    ∃ L', Chain s'.mem L' ∧ s'.head = firstAddr L' ∧ Tracked s' L' := by
  obtain ⟨s₁, hgive, hs₁, hlast₁, -⟩ := giveBack_eq h.chain ht
    (blockSize s.lastBlockSize t B)
  have h₁ := h.credited hs₁
  have hw₁ := hw.credited hs₁ ht fun hne => hlast₁.trans (if_neg hne)
  rw [Heap.freeBlock, getBlockSize_eq h.chain] at hrun
  simp only [Option.bind_eq_bind, Option.bind_some] at hrun
  split at hrun
  case isTrue =>
    obtain ⟨-, rfl⟩ := Prod.mk.inj (Option.some.inj hrun)
    exact ⟨_, h.chain, h.head, hw⟩
  case isFalse hsize =>
    have hfreed : freedState s t.addr = some s₁ := by
      rw [freedState, getBlockSize_eq h.chain, Option.bind_eq_bind,
        Option.bind_some, if_neg hsize, hgive]
    have hguard₁ := fun hz : coalesce ≠ 0 => hguard hz s₁ hfreed
    obtain ⟨A', t', B', flag, s₂, hm, hmerge, hkept, hc₂, -, hlast₂, hflag, -⟩ :=
      coalesceFreed_eq h₁ ht fun hz =>
        ⟨(hguard₁ hz).1, (hguard₁ hz).2.1, (hguard₁ hz).2.2.1⟩
    obtain ⟨m₃, hstatus, -, -, hc₃⟩ := setStatus_eq hc₂ true
    rw [if_pos rfl] at hstatus
    simp only [hgive, hmerge, hstatus, Option.bind_some] at hrun
    rcases enlist_eq fuel (s := { s₂ with mem := m₃ }) hc₃
      (decide (coalesce = 0) || flag) with ⟨hnone, -⟩ | ⟨m₄, hlist, hed⟩
    case inl =>
      dsimp only at hnone
      rw [hnone] at hrun
      cases hrun
    dsimp only at hlist hed
    simp only [hlist, Option.bind_some, Option.bind_eq_some_iff] at hrun
    obtain ⟨s₅, hre, hrun⟩ := hrun
    obtain ⟨-, rfl⟩ := Prod.mk.inj (Option.some.inj hrun)
    obtain ⟨hfree₅, hlast₅, hhead₅, hmem₅, hcached₅⟩ := recache_largest hre
    dsimp only at hfree₅ hlast₅ hhead₅ hmem₅ hcached₅
    -- the link of the freed block
    have hlink := hm.link_eq hw₁ h₁ ht fun hz =>
      ⟨(hguard₁ hz).2.1, (hguard₁ hz).2.2.2⟩
    rw [← hkept.headFree] at hlink
    have hif : (if (decide (coalesce = 0) || flag) = true
        then lastLink s₂.headFree A' else t'.link) = firstListed NULL B' := by
      rw [hflag]
      simpa using hlink
    rw [hif] at hed
    obtain ⟨⟨after, hfront⟩, hbehind⟩ := hm.unbroken_around hw₁.unbroken
    obtain ⟨-, -, hstart, hany⟩ := hm.around h₁.thread
    have hlastB : B' ≠ [] → s₂.lastBlockSize = s₁.lastBlockSize := by
      intro hne
      rw [hlast₂, coalescedSize_of_behind hne, ite_self]
    have hshapes : shapes (relink t'.addr A'
        ++ ⟨t'.addr, firstListed NULL B', true⟩ :: B')
        = shapes A' ++ (t'.addr, true) :: shapes B' := by
      rw [shapes_append, shapes_relink, shapes_cons]
    have hchain : Chain s₅.mem (relink t'.addr A'
        ++ ⟨t'.addr, firstListed NULL B', true⟩ :: B') := by
      rw [hmem₅]
      exact hed.chain
    refine ⟨_, hchain, ?_, ?_, ?_, fun hl hsec => ?_⟩
    · rw [hhead₅, hkept.head, h₁.head, ← hstart]
      exact firstAddr_eq_of_addrs (by simp [addrs_relink])
    · refine Lib.unbroken_append.mpr ⟨?_, (if_pos rfl).symm, hbehind⟩
      rw [firstListed, if_pos rfl]
      exact hfront.relink
    · rw [hfree₅, Lib.firstListed_append, Lib.firstListed_relink, firstListed,
        if_pos rfl]
      cases hcase : A'.any Lib.Cell.listed with
      | true =>
          rw [if_pos rfl, hany hcase, hkept.headFree]
          exact hw₁.headFree
      | false =>
          rw [if_neg Bool.false_ne_true, Lib.firstListed_none
            (Lib.noneListed_iff.mpr hcase)]
    · obtain ⟨hl₂, hsec₂, k, k', hk', hk, hwhich⟩ := hcached₅ hl hsec
      obtain ⟨j, hin, hmax⟩ := hm.cached hw₁ h₁.chain ht
        (fun hz => (hguard₁ hz).1) hmerge hkept hc₂.mem.ne_null hlastB hl₂ hsec₂
      rw [hlast₅, hshapes]
      -- `get_block_size` reads the spans of the list
      have hread : ∀ {q : Span}, q ∈ spans s₂.lastBlockSize none
          (shapes A' ++ (t'.addr, true) :: shapes B') → getBlockSize
          { s₂ with
            mem := m₄
            headFree := if A'.any Lib.Cell.listed then s₂.headFree
              else t'.addr } q.addr = some q.size := by
        intro q hq
        rw [← hshapes] at hq
        exact (Chain.read_span (s := { s₂ with mem := m₄ }) hed.chain hq).1
      obtain rfl := Option.some.inj (hk.symm.trans
        (hread (mem_spans.mpr (hin.imp_right .inr))))
      obtain rfl := Option.some.inj (hk'.symm.trans
        (hread (mem_spans.mpr (.inr (.inl rfl)))))
      exact isLargest_of_compared hin hmax hwhich

-- ============================================================== Mem_Free

/-- The allocator is in order, its free list is whole, and the allocations
`live` have their blocks. -/
def Orderly (s : State) (live : List (Int × Int)) (L : List Block) : Prop :=
  Inv s L ∧ Tracked s L ∧ ∀ q ∈ live, Owns L q

variable {live : List (Int × Int)} {ptr : Int}

/-- A guarded global pass. -/
theorem Orderly.coalesceAll (h : Orderly s live L)
    (hcalls : ∀ c ∈ passCalls fuel s.head s,
      ¬StaleCache c.1 c.2 ∧ PassTracks c.1 c.2)
    (hrun : Heap.coalesceAll fuel s = some s') :
    ∃ L', Orderly s' live L' := by
  obtain ⟨hinv, hw, hlive⟩ := h
  unfold Heap.coalesceAll at hrun
  rw [if_neg (not_not.mpr hinv.ready)] at hrun
  simp only [Option.bind_eq_bind, Option.bind_eq_some_iff] at hrun
  obtain ⟨s₁, hpass, hrun⟩ := hrun
  obtain rfl := Option.some.inj hrun
  have hstart : s.head = NULL ∨ ∃ f, (s.head, f) ∈ shapes L := by
    rw [hinv.head]
    cases L with
    | nil => exact .inl rfl
    | cons b rest => exact .inr ⟨b.listed, by simp [shapes]⟩
  obtain ⟨L', h', hw', hlive'⟩ := coalesceFrom_rule
    (I := fun s₂ L₂ => Orderly s₂ live L₂)
    (fun hI => hI.1) (fun hI ht hstale (hok : PassTracks _ _) => by
      obtain ⟨A', t', B', s₂, hm, -, hcall, h₂, hsize, hkept⟩ :=
        hI.1.coalesce ht hstale
      exact ⟨A', t', B', s₂, hcall, h₂,
        hI.2.1.merged hI.1 ht hstale hok.1 hok.2 hm hcall hkept h₂.chain
          hsize.lastBlockSize,
        fun q hq => hm.owns ht (hI.2.2 q hq)⟩)
    fuel s.head s s₁ L ⟨hinv, hw, hlive⟩ hstart hcalls hpass
  exact ⟨L', h'.flag _, hw'.recached rfl hw'.cached, hlive'⟩

theorem Orderly.pending (h : Orderly s live L)
    (hcalls : coalesce ≠ 0 → s.needGlobalCoalesce = TRUE →
      ∀ c ∈ passCalls fuel s.head s, ¬StaleCache c.1 c.2 ∧ PassTracks c.1 c.2)
    (hrun : pendingCoalesce fuel s coalesce = some s') :
    ∃ L', Orderly s' live L' := by
  unfold pendingCoalesce at hrun
  split at hrun
  case isTrue hboth => exact h.coalesceAll (hcalls hboth.2 hboth.1) hrun
  case isFalse =>
    obtain rfl := Option.some.inj hrun
    exact ⟨L, h⟩

/-- A guarded `Mem_Free` keeps the free list whole and the cached largest
block right. -/
theorem Orderly.memFree (h : Orderly s live L) {r : Int}
    (hptr : ptr = NULL ∨ ptr ∈ live.map Prod.fst)
    (hok : FreeOk fuel s PassTracks FreeTracks ptr coalesce)
    (hrun : Heap.memFree fuel s ptr coalesce = some (r, s')) :
    ∃ L', Chain s'.mem L' ∧ s'.head = firstAddr L' ∧ Tracked s' L' := by
  have hdone : ∀ {s' : State} {L' : List Block}, Orderly s' live L' →
      ∃ L', Chain s'.mem L' ∧ s'.head = firstAddr L' ∧ Tracked s' L' :=
    fun h => ⟨_, h.1.chain, h.1.head, h.2.1⟩
  unfold Heap.memFree at hrun
  by_cases hnull : ptr = NULL
  · rw [if_pos hnull] at hrun
    split at hrun
    case isTrue hzero =>
      simp only [Option.bind_eq_bind, Option.bind_eq_some_iff] at hrun
      obtain ⟨s₁, hall, hrun⟩ := hrun
      obtain ⟨-, rfl⟩ := Prod.mk.inj (Option.some.inj hrun)
      obtain ⟨L', h'⟩ := h.coalesceAll (hok.pass hzero (.inl hnull)) hall
      exact hdone h'
    case isFalse =>
      obtain ⟨-, rfl⟩ := Prod.mk.inj (Option.some.inj hrun)
      exact hdone h
  rw [if_neg hnull] at hrun
  simp only [Option.bind_eq_bind, Option.bind_eq_some_iff] at hrun
  obtain ⟨s₁, hpending, valid, -, hrun⟩ := hrun
  obtain ⟨L₁, h₁, hw₁, hlive₁⟩ := h.pending
    (fun hz hneed => hok.pass hz (.inr hneed)) hpending
  generalize hs₂ : (if coalesce = 0 then
    { s₁ with needGlobalCoalesce := TRUE } else s₁) = s₂ at hrun
  obtain ⟨h₂, hw₂⟩ : Inv s₂ L₁ ∧ Tracked s₂ L₁ := by
    rw [← hs₂]
    split
    · exact ⟨h₁.flag _, hw₁.recached rfl hw₁.cached⟩
    · exact ⟨h₁, hw₁⟩
  cases valid with
  | false =>
      obtain ⟨-, rfl⟩ := Prod.mk.inj (Option.some.inj hrun)
      exact hdone ⟨h₂, hw₂, hlive₁⟩
  | true =>
      obtain ⟨q, hq, hqp⟩ := List.mem_map.mp (hptr.resolve_left hnull)
      obtain ⟨A, t, B, rfl, ht, haddr⟩ := (hlive₁ q hq).block
      rw [hqp] at haddr
      rw [if_pos rfl, haddr] at hrun
      refine hw₂.freeBlock h₂ ht (fun hz s₃ hs₃ => ?_) hrun
      rw [← hs₂, if_neg hz, ← haddr] at hs₃
      rw [← haddr]
      exact hok.freed hz hnull s₁ s₃ hpending hs₃

-- =============================================================== all runs

theorem tracked_memInit {env : Env}
    (hrun : memInit env s size = some (RETURN_SUCCESS, s')) (hready : s'.ready) :
    Tracked s' [⟨s'.globalHead + GLOBAL_SIZE, NULL, true⟩] := by
  obtain ⟨hinv, hfree, -⟩ := memInit_eq hrun hready
  obtain ⟨-, -, -, hl, -⟩ := memInit_start hrun
  exact ⟨⟨rfl, trivial⟩, hfree.trans hinv.head, fun hne => absurd hl hne⟩

theorem reach_orderly (h : Reach (client fun _ _ => True) Tracking c) :
    ∃ L, Orderly c.heap c.live L := by
  refine h.invariant (I := fun c => ∃ L, Orderly c.heap c.live L) ?_ ?_
  · intro c hstart
    obtain ⟨hlive, hready, env, s, size, -, hrun⟩ := hstart
    exact ⟨_, (memInit_eq hrun hready).1, tracked_memInit hrun hready,
      by rw [hlive]; exact nofun⟩
  · intro a c c' hI hok hstep
    obtain ⟨L, hinv, hw, hlive⟩ := hI
    -- the chain that is in order is the one whose list is whole
    obtain ⟨L', hinv', -, hlive'⟩ := keeps_true.step a ⟨L, hinv, trivial, hlive⟩
      hok.careful hstep
    have hdone : (∃ L'', Chain c'.heap.mem L'' ∧ c'.heap.head = firstAddr L''
        ∧ Tracked c'.heap L'') → ∃ L, Orderly c'.heap c'.live L := by
      intro hL''
      obtain ⟨L'', hc'', hhead, hw''⟩ := hL''
      obtain rfl := hinv'.chain.unique (A := []) hc''
        (hinv'.head.symm.trans hhead)
      exact ⟨L', hinv', hw'', hlive'⟩
    apply hdone
    cases a with
    | alloc fuel size =>
        obtain ⟨hpos, p, heap, hrun, rfl⟩ := step_alloc hstep
        exact hw.memAlloc hinv hpos hok hrun
    | free fuel ptr coalesce =>
        obtain ⟨hptr, r, heap, hrun, rfl⟩ := step_free hstep
        exact Orderly.memFree ⟨hinv, hw, hlive⟩ hptr hok hrun
    | write a v =>
        obtain ⟨⟨q, hq, hlo, hhi⟩, heap, hstore, rfl⟩ := step_write hstep
        obtain ⟨hmapped, rfl⟩ := State.store_eq_some hstore
        have hinv₁ := hinv.write (hlive q hq) v hmapped.2.2 hlo hhi
        exact ⟨L, hinv₁.chain, hinv₁.head, hw.recached rfl hw.cached⟩

/-- In a run whose calls track the FREE blocks, `Mem_Alloc` takes a FREE
block that no FREE block exceeds in size; a full scan would take one of the
same size. -/
theorem takes_largest (h : Reach (client fun _ _ => True) Tracking c)
    (hint : IntLast c.heap)
    (hrun : memAlloc fuel c.heap size = some (p, s')) (hp : p ≠ NULL) :
    OnChain c.heap (getHeader p) ∧ c.heap.status (getHeader p) = some FREE
      ∧ ∃ k, getBlockSize c.heap (getHeader p) = some k
        ∧ (∀ q k', OnChain c.heap q → c.heap.status q = some FREE →
          getBlockSize c.heap q = some k' → k' ≤ k)
        ∧ ∀ enough choice, scan c.heap (roundTo size BLOCK_SIZE) enough
            c.heap.headFree NULL (unchosen c.heap.headFree c.heap.headFree)
            = some choice →
          choice.sizeToAllocate ≠ -1 → choice.sizeToAllocate = k := by
  obtain ⟨L, hinv, hw, -⟩ := reach_orderly h
  obtain ⟨choice, hsearch, hsome, rfl⟩ := memAlloc_chosen hrun hp
  obtain ⟨hin, hmax⟩ := (hw.search hinv hint hsearch).2 hsome
  obtain ⟨hread, hstatus⟩ := hinv.chain.read_span hin
  have hheader : getHeader (choice.nextToAllocate + BLOCK_HEADER)
      = choice.nextToAllocate := Int.add_sub_cancel _ _
  rw [hheader]
  refine ⟨hinv.chain.onChain_span hinv.head hin, hstatus.mpr rfl,
    choice.sizeToAllocate, hread, ?_, ?_⟩
  · intro q k' hon hfree hk'
    obtain ⟨r, hr, rfl⟩ := hinv.chain.exists_span hinv.head hon
    obtain ⟨hread', hstatus'⟩ := hinv.chain.read_span hr
    obtain rfl := Option.some.inj (hread'.symm.trans hk')
    exact hmax r hr (hstatus'.mp hfree)
  · intro enough full hscan hfull
    by_cases hne : c.heap.headFree = NULL
    · rw [hne] at hscan
      obtain rfl := scan_null hscan
      exact absurd rfl hfull
    · obtain ⟨hin', hmax'⟩ := (hw.fullScan hinv hint (hw.first hne)
        hscan).maximal hfull
      have hle := hmax _ hin' rfl
      have hge := hmax' _ hin rfl
      exact Int.le_antisymm hle hge

/-- While there is one FREE block no other one is overlooked. -/
theorem restIsLargest_of_one {a : Int} (h : Inv s L)
    (hone : ∀ p, OnChain s p → s.status p = some FREE → p = a) :
    RestIsLargest s size := by
  intro fuel c next hsearch hsome _ _ _
  obtain ⟨A, t, B, rfl, hc, -⟩ := (search_spec h hsearch).2 hsome
  have hfree : s.status t.addr = some FREE := by
    rw [State.status_eq h.chain.mem, statusOf, if_pos hc.free]
  have hchosen : c.nextToAllocate = a := by
    rw [hc.block]
    exact hone _ ((onChain_iff h.chain h.head).mpr ⟨t, by simp, rfl⟩) hfree
  right
  intro p k hon hne hp _
  exact absurd ((hone p hon hp).trans hchosen.symm) hne

/-- The theorem with two FREE blocks, of 200 and 160 bytes, both cached. -/
theorem takes_largest_two : ∃ c s',
    Reach (client fun _ _ => True) Tracking c
      ∧ c.heap.largest = 65656 ∧ c.heap.secondLargest = 65888
      ∧ OnChain c.heap 65888 ∧ c.heap.status 65888 = some FREE
      ∧ getBlockSize c.heap 65888 = some 160
      ∧ memAlloc 9 c.heap 8 = some (65688, s')
      ∧ getBlockSize c.heap (getHeader 65688) = some 200
      ∧ ∀ q k, OnChain c.heap q → c.heap.status q = some FREE →
          getBlockSize c.heap q = some k → k ≤ 200 := by
  have hstart : (client fun _ _ => True).start (opened 400) :=
    start_opened trivial (by decide +kernel) (by decide +kernel)
  have h₀ : Reach (client fun _ _ => True) Tracking (opened 400) :=
    ⟨_, hstart, .refl _⟩
  -- one FREE block until the second one is freed
  have hone {c : Config} {a : Int} {l : List Int}
      (h : Reach (client fun _ _ => True) Tracking c) (size : Int)
      (hhead : c.heap.head ∈ l)
      (hnext : ∀ p ∈ l, ∀ q ∈ c.heap.next p, q = NULL ∨ q ∈ l)
      (hfree : ∀ p ∈ l, c.heap.status p = some FREE → p = a) :
      RestIsLargest c.heap size := by
    obtain ⟨L, hinv, -⟩ := reach_orderly h
    exact restIsLargest_of_one hinv fun p hon =>
      hfree p (hon.mem hhead hnext)
  have hok₀ : Tracking (.alloc 9 40) (opened 400) :=
    fun _ => ⟨(allocOk_of_search (by decide) (by decide +kernel)
      (by decide +kernel)).1,
      fun _ _ _ _ => ⟨by decide +kernel, by decide +kernel⟩,
      hone (a := 65584) (l := [65584]) h₀ 40 (by decide +kernel)
        (by decide +kernel) (by decide +kernel)⟩
  let c₁ := (step (.alloc 9 40) (opened 400)).get (by decide +kernel)
  have h₁ : Reach (client fun _ _ => True) Tracking c₁ :=
    h₀.step hok₀ (Option.some_get _).symm
  have hok₁ : Tracking (.alloc 9 200) c₁ :=
    fun _ => ⟨(allocOk_of_search (by decide) (by decide +kernel)
      (by decide +kernel)).1,
      fun _ _ _ _ => ⟨by decide +kernel, by decide +kernel⟩,
      hone (a := 65656) (l := [65584, 65656]) h₁ 200 (by decide +kernel)
        (by decide +kernel) (by decide +kernel)⟩
  let c₂ := (step (.alloc 9 200) c₁).get (by decide +kernel)
  have h₂ : Reach (client fun _ _ => True) Tracking c₂ :=
    h₁.step hok₁ (Option.some_get _).symm
  let c₃ := (step (.free 9 65688 0) c₂).get (by decide +kernel)
  have h₃ : Reach (client fun _ _ => True) Tracking c₃ :=
    h₂.step (show Tracking (.free 9 65688 0) c₂ from freeOk_zero)
      (Option.some_get _).symm
  have hint : IntLast c₃.heap := fun _ _ _ _ =>
    ⟨by decide +kernel, by decide +kernel⟩
  let r := (memAlloc 9 c₃.heap 8).get (by decide +kernel)
  have hp : r.1 = 65688 := by decide +kernel
  have hr : memAlloc 9 c₃.heap 8 = some (65688, r.2) :=
    (Option.some_get (by decide +kernel)).symm.trans
      (congrArg (fun p => some (p, r.2)) hp)
  obtain ⟨-, -, k, hk, hmax, -⟩ := takes_largest h₃ hint hr (by decide)
  have hsize : getBlockSize c₃.heap (getHeader 65688) = some 200 := by
    decide +kernel
  obtain rfl := Option.some.inj (hk.symm.trans hsize)
  have hhead : OnChain c₃.heap 65584 := by
    have heq : c₃.heap.head = 65584 := by decide +kernel
    rw [← heq]
    exact .head (by rw [heq]; decide)
  have hon : OnChain c₃.heap 65888 :=
    (hhead.next (q := 65656) (by decide +kernel) (by decide)).next
      (by decide +kernel) (by decide)
  exact ⟨c₃, r.2, h₃, by decide +kernel, by decide +kernel, hon,
    by decide +kernel, by decide +kernel, hr, hsize, hmax⟩

/-- The two largest blocks have 160 bytes when the first of them is cut. Its
last 120 bytes are cached as the largest block. -/
theorem takes_smaller : ¬∀ (c : Config) (fuel : Nat) (size p : Int)
    (s' : State), Reach (client fun _ _ => True) Anything c → 1 ≤ size →
    memAlloc fuel c.heap size = some (p, s') → p ≠ NULL →
    c.heap.status (getHeader p) = some FREE
      ∧ ∃ k, getBlockSize c.heap (getHeader p) = some k
        ∧ ∀ q k', OnChain c.heap q → c.heap.status q = some FREE →
          getBlockSize c.heap q = some k' → k' ≤ k := by
  intro hall
  let c := (Lib.run (client fun _ _ => True) [.alloc 9 40, .alloc 9 200,
    .free 9 65688 0, .alloc 9 8, .alloc 9 8] (opened 400)).get
    (by decide +kernel)
  have hreach : Reach (client fun _ _ => True) Anything c :=
    Lib.reach_of_run _
      (start_opened trivial (by decide +kernel) (by decide +kernel))
      (Option.some_get _).symm
  let r := (memAlloc 9 c.heap 8).get (by decide +kernel)
  have hr : memAlloc 9 c.heap 8 = some (r.1, r.2) := (Option.some_get _).symm
  obtain ⟨-, k, hk, hmax⟩ := hall c 9 8 r.1 r.2 hreach (by decide) hr
    (by decide +kernel)
  have hsize : getBlockSize c.heap (getHeader r.1) = some 120 := by
    decide +kernel
  obtain rfl := Option.some.inj (hk.symm.trans hsize)
  -- the last block of the chain
  have hhead : OnChain c.heap 65584 := by
    have heq : c.heap.head = 65584 := by decide +kernel
    rw [← heq]
    exact .head (by rw [heq]; decide)
  have hon : OnChain c.heap 65888 :=
    (((hhead.next (q := 65656) (by decide +kernel) (by decide)).next
      (q := 65696) (by decide +kernel) (by decide)).next
      (q := 65736) (by decide +kernel) (by decide)).next
      (by decide +kernel) (by decide)
  have hle := hmax 65888 160 hon (by decide +kernel) (by decide +kernel)
  exact absurd hle (by decide)

end OperatingSystem.Heap
