/-
`Mem_Free` keeps the invariant where the guard holds.

A freed block goes through three changes: it is merged with its FREE
neighbours (`Merges`), becomes FREE, and is linked into the free list
behind the last FREE block in front of it (`enlist_eq`). The chain ends up
as `relink t'.addr A' ++ t'' :: B'`, with `A'`, `t'`, `B'` from the merge.

What `Mem_Free` stores in `t''.link` depends on `coalesce_flag`. After a
merge with the previous block that flag is off, since the size has changed
(`after_ne_before`), and the merged link stays. Otherwise the link is read
off the free list again, and that is right unless the list leads to a
header that has just been absorbed.
-/
import OperatingSystem.Heap.Inv

namespace OperatingSystem.Heap

open Lib (Words i64 firstListed lastListed lastLink relink Threaded NoneListed)

variable {s s' s₁ s₂ : State} {A A' B B' L L' : List Block} {t t' : Block}
  {fuel : Nat} {coalesce r : Int}

-- ============================================================ enlisting

/-- The freed block is put behind the last FREE block in front of it, or
the walk there is not done yet. -/
theorem enlist_eq (fuel : Nat) (h : Chain s.mem (A ++ t :: B))
    (relinks : Bool) :
    enlist fuel s t.addr relinks = none ∧ fuel ≤ A.length
      ∨ ∃ m', enlist fuel s t.addr relinks = some { s with
            mem := m'
            headFree := if A.any Lib.Cell.listed then s.headFree else t.addr }
          ∧ Edited s.mem m' (relink t.addr A ++ { t with
            link := if relinks then lastLink s.headFree A else t.link } :: B)
    := by
  unfold enlist
  simp only [Option.bind_eq_bind]
  rw [State.prev_eq h, Option.bind_some]
  rcases nearestFree_eq fuel h with hrun | ⟨hrun, hle⟩
  case inr =>
    rw [hrun]
    exact .inl ⟨rfl, hle⟩
  right
  rw [hrun, Option.bind_some]
  rcases Lib.exists_last A with hnone | ⟨D, q, E, rfl, hq, hE⟩
  · rw [Lib.lastListed_none hnone, Lib.relink_none hnone,
      Lib.lastLink_none hnone, Lib.noneListed_iff.mp hnone,
      if_neg (not_not.mpr rfl), if_neg Bool.false_ne_true]
    cases relinks with
    | false =>
        rw [if_neg Bool.false_ne_true, if_neg Bool.false_ne_true,
          Option.bind_some]
        exact ⟨s.mem, rfl, rfl, rfl, h⟩
    | true =>
        obtain ⟨m', hset, hed⟩ := setNextFree_eq h s.headFree
        rw [if_pos rfl, if_pos rfl, hset, Option.bind_some]
        exact ⟨m', rfl, hed⟩
  · have hqc := h.regroup
    have hany : (D ++ q :: E).any Lib.Cell.listed = true := by
      simp [hq]
    rw [Lib.lastListed_split _ hq hE, Lib.relink_split hq hE,
      Lib.lastLink_split _ hq hE, hany, if_pos hqc.mem.ne_null, if_pos rfl,
      State.nextFree_eq hqc.mem, Option.bind_some]
    cases relinks with
    | false =>
        obtain ⟨m', hset, hbase, hsize, hc⟩ := setNextFree_eq hqc t.addr
        rw [if_neg Bool.false_ne_true, if_neg Bool.false_ne_true,
          Option.bind_some, hset]
        refine ⟨m', rfl, hbase, hsize, ?_⟩
        rwa [List.append_assoc, List.cons_append]
    | true =>
        obtain ⟨m₁, hset₁, hbase₁, hsize₁, hc₁⟩ := setNextFree_eq h q.link
        rw [List.append_assoc, List.cons_append] at hc₁
        obtain ⟨m', hset, hbase, hsize, hc⟩ := setNextFree_eq
          (s := { s with mem := m₁ }) hc₁ t.addr
        rw [if_pos rfl, if_pos rfl, hset₁, Option.bind_some, hset]
        refine ⟨m', rfl, hbase.trans hbase₁, hsize.trans hsize₁, ?_⟩
        rwa [List.append_assoc, List.cons_append]

/-- The cached pointers after `recache`, and nothing else. -/
theorem recache_eq {curr : Int} (h : recache s curr = some s') :
    ∃ l m, s' = { s with largest := l, secondLargest := m }
      ∧ (l ≠ NULL → m ≠ NULL →
        l = curr ∨ l = s.largest ∧ s.largest ≠ NULL
          ∧ s.secondLargest ≠ NULL) := by
  unfold recache at h
  split at h
  case isTrue hboth =>
    simp only [Option.bind_eq_bind, Option.bind_eq_some_iff] at h
    obtain ⟨size, -, sizeOfLargest, -, h⟩ := h
    split at h
    case isTrue =>
      exact ⟨curr, s.largest, (Option.some.inj h).symm, fun _ _ => .inl rfl⟩
    case isFalse =>
      simp only [Option.bind_eq_some_iff] at h
      obtain ⟨sizeOfSecond, -, h⟩ := h
      obtain rfl := Option.some.inj h
      split
      case isTrue =>
        exact ⟨s.largest, curr, rfl, fun _ _ => .inr ⟨rfl, hboth⟩⟩
      case isFalse =>
        exact ⟨s.largest, s.secondLargest, rfl, fun _ _ => .inr ⟨rfl, hboth⟩⟩
  case isFalse hnot =>
    obtain rfl := Option.some.inj h
    exact ⟨s.largest, s.secondLargest, rfl,
      fun hl hm => absurd ⟨hl, hm⟩ hnot⟩

-- ======================================================== the freed bytes

/-- `s'` differs from `s` in what is left and in the recorded sizes. -/
structure Credited (s s' : State) : Prop where
  globalHead : s'.globalHead = s.globalHead
  head : s'.head = s.head
  headFree : s'.headFree = s.headFree
  actualSize : s'.actualSize = s.actualSize
  mem : s'.mem = s.mem
  largest : s'.largest = s.largest
  secondLargest : s'.secondLargest = s.secondLargest

theorem Inv.credited (h : Inv s L) (hs : Credited s s') : Inv s' L := by
  refine h.rebuild ⟨hs.globalHead, hs.actualSize, hs.head, ?_, ?_⟩ ?_ rfl
    h.thread ?_ ?_
  · rw [hs.mem]
  · rw [hs.mem]
  · rw [hs.mem]
    exact h.chain
  · rw [hs.headFree]
    exact h.headFree
  · rw [hs.largest, hs.secondLargest]
    exact h.cached

/-- Giving an ALLOCATED block's bytes back: a last block has its recorded
size again. -/
theorem giveBack_eq (h : Chain s.mem (A ++ t :: B)) (ht : t.listed = false)
    (size : Int) :
    ∃ s₁, giveBack s t.addr size = some s₁ ∧ Credited s s₁
      ∧ s₁.lastBlockSize
        = (if B = [] then s.sizeOfLastAllocate else s.lastBlockSize)
      ∧ s₁.sizeOfLastAllocate
        = (if B = [] then -1 else s.sizeOfLastAllocate) := by
  have hstatus : statusOf t = ALLOCATED := by rw [statusOf, ht]; rfl
  have hnull := h.firstAddr_eq_null
  unfold giveBack
  simp only [Option.bind_eq_bind]
  rw [State.status_eq h.mem, Option.bind_some, hstatus, if_pos rfl,
    State.next_eq h, Option.bind_some]
  by_cases hB : B = []
  · rw [if_pos (hnull.mpr hB), if_pos hB, if_pos hB]
    exact ⟨_, rfl, ⟨rfl, rfl, rfl, rfl, rfl, rfl, rfl⟩, rfl, rfl⟩
  · rw [if_neg (mt hnull.mp hB), if_neg hB, if_neg hB]
    exact ⟨_, rfl, ⟨rfl, rfl, rfl, rfl, rfl, rfl, rfl⟩, rfl, rfl⟩

-- ============================================================= the merge

theorem i64_sum {l c g : Int} (hl : 0 ≤ l) (hl' : l < 2305843009213693952)
    (hc : 0 ≤ c) (hc' : c < 2305843009213693952) (hg : 0 ≤ g)
    (hg' : g < 2147483648) : i64 (i64 (l + c) + g) = l + c + g := by
  rw [Lib.i64_of_range (n := l + c) (by omega) (by omega)]
  exact Lib.i64_of_range (by omega) (by omega)

/-- A merge with the previous block changes the size, so that
`coalesce_flag` stays off. -/
theorem Merges.after_ne_before (h : Merges A t B A' t' B')
    (hinv : Inv s (A ++ t :: B)) (hrange : InRange s t.addr)
    (hne : t'.addr ≠ t.addr) :
    blockSize (coalescedSize s.lastBlockSize A t B B') t' B'
      - blockSize s.lastBlockSize t B ≠ 0 := by
  obtain ⟨hlo, hhi⟩ := hrange
  have hsmall := hinv.small
  rw [← hinv.size] at hsmall
  have hspan := hinv.chain.mem.high
  cases h with
  | neither => exact absurd rfl hne
  | next => exact absurd rfl hne
  | prev _ w _ _ hw hB =>
      have hc := hinv.chain
      have hbefore := hc.before w (by simp)
      have hlow := (hc.holds w (by simp)).low
      cases B with
      | nil =>
          rw [coalescedSize_free hw, blockSize, blockSize]
          rw [i64_sum hlo hhi hlo hhi (by omega) (by omega)]
          omega
      | cons b rest =>
          simp only [blockSize]
          omega
  | both _ w _ x _ hw hx =>
      have hc := hinv.chain
      have hbefore := hc.before w (by simp)
      have hbehind := hc.behind x List.mem_cons_self
      have hlow := (hc.holds w (by simp)).low
      have hhigh := (hc.holds x (by simp)).high
      cases B' with
      | nil =>
          rw [coalescedSize_free hw, blockSize, blockSize]
          rw [i64_sum hlo hhi (by omega) (by omega) (by omega) (by omega)]
          omega
      | cons b rest =>
          have hxb := hc.shift.behind b List.mem_cons_self
          simp only [blockSize]
          omega

/-- The thread in front of a merged block. -/
theorem Merges.thread_front (h : Merges A t B A' t' B')
    (hL : Threaded NULL NULL (A ++ t :: B)) :
    ∃ after, Threaded NULL after A' := by
  obtain ⟨hA, -⟩ := Lib.threaded_append.mp hL
  rcases h.front with ⟨rfl, -⟩ | ⟨w, rfl, -⟩
  · exact ⟨_, hA⟩
  · exact ⟨_, (Lib.threaded_append.mp hA).1⟩

/-- What the free list says about the place of an ALLOCATED block is right:
it leads to the next FREE block or nowhere. -/
theorem Inv.leads (h : Inv s (A ++ t :: B)) (ht : t.listed = false) :
    lastLink s.headFree A = NULL
      ∨ lastLink s.headFree A = firstListed NULL B := by
  obtain ⟨hA, -⟩ := Lib.threaded_append.mp h.thread
  have hfirst : firstListed NULL (t :: B) = firstListed NULL B := by
    rw [firstListed, ht, if_neg Bool.false_ne_true]
  rw [hfirst] at hA
  refine hA.lastLink ?_
  have hhead := h.headFree
  rw [Lib.firstListed_append, hfirst] at hhead
  exact hhead

/-- The free list leads to the block behind, as a guard sees it. -/
theorem leadsTo_of_lastLink (h : Chain s.mem (A ++ t :: B)) :
    LeadsTo s t.addr (lastLink s.headFree A) := by
  have hwalk : nearestFree s (A.length + 1) (lastAddr A)
      = some (lastListed NULL A) :=
    (nearestFree_eq _ h).resolve_right fun hle => by
      have := hle.2
      omega
  refine ⟨A.length + 1, lastAddr A, _, State.prev_eq h, hwalk, ?_⟩
  rcases Lib.exists_last A with hnone | ⟨D, q, E, rfl, hq, hE⟩
  · rw [Lib.lastListed_none hnone, Lib.lastLink_none hnone, if_pos rfl]
  · have hqc := h.regroup
    rw [Lib.lastListed_split _ hq hE, Lib.lastLink_split _ hq hE,
      if_neg hqc.mem.ne_null]
    exact State.nextFree_eq hqc.mem

/-- What a call with this `coalesce` does to the chain before the block is
listed. -/
def MergesIf (coalesce : Int) (A : List Block) (t : Block) (B A' : List Block)
    (t' : Block) (B' : List Block) : Prop :=
  coalesce = 0 ∧ A' = A ∧ t' = t ∧ B' = B
    ∨ coalesce ≠ 0 ∧ Merges A t B A' t' B'

/-- Around the block that results, the thread is in order, and the chain and
the list in front of it start where they started. -/
theorem MergesIf.around (h : MergesIf coalesce A t B A' t' B')
    (hL : Threaded NULL NULL (A ++ t :: B)) :
    (∃ after, Threaded NULL after A') ∧ Threaded NULL NULL B'
      ∧ firstAddr (A' ++ t' :: B') = firstAddr (A ++ t :: B)
      ∧ (A'.any Lib.Cell.listed = true → ∀ after,
        firstListed after A' = firstListed NULL (A ++ t :: B)) := by
  rcases h with ⟨-, rfl, rfl, rfl⟩ | ⟨-, hm⟩
  · obtain ⟨hA, -, hB⟩ := Lib.threaded_append.mp hL
    refine ⟨⟨_, hA⟩, hB, rfl, fun hany after => ?_⟩
    rw [Lib.firstListed_append]
    exact Lib.firstListed_of_any hany
  · refine ⟨hm.thread_front hL, (hm.thread_behind hL).2, hm.firstAddr_eq,
      fun hany after => ?_⟩
    rw [Lib.firstListed_append]
    rcases hm.front with ⟨rfl, -⟩ | ⟨w, rfl, -⟩
    · exact Lib.firstListed_of_any hany
    · rw [Lib.firstListed_append]
      exact Lib.firstListed_of_any hany

/-- The merge of a freed block, and the link that it gets afterwards. -/
theorem coalesceFreed_eq (h : Inv s (A ++ t :: B)) (ht : t.listed = false)
    (hguard : coalesce ≠ 0 → ¬StaleCache s t.addr ∧ ¬DanglingLink s t.addr
      ∧ InRange s t.addr) :
    ∃ A' t' B' flag s', MergesIf coalesce A t B A' t' B'
      ∧ coalesceFreed s t.addr coalesce = some (t'.addr, flag, s')
      ∧ Kept s s' ∧ Chain s'.mem (A' ++ t' :: B')
      ∧ (s'.largest ≠ NULL → s'.secondLargest ≠ NULL →
        (s'.largest, true) ∈ shapes (A' ++ t' :: B'))
      ∧ s'.lastBlockSize = (if coalesce = 0 then s.lastBlockSize
        else coalescedSize s.lastBlockSize A t B B')
      ∧ (decide (coalesce = 0) || flag) = decide (t'.addr = t.addr)
      ∧ ∀ v, v = (if decide (coalesce = 0) || flag
          then lastLink s'.headFree A' else t'.link) →
        v = NULL ∨ v = firstListed NULL B' := by
  unfold coalesceFreed
  by_cases hzero : coalesce = 0
  · rw [if_neg (not_not.mpr hzero)]
    refine ⟨A, t, B, false, s, .inl ⟨hzero, rfl, rfl, rfl⟩, rfl, .refl s,
      h.chain, h.cached, (if_pos hzero).symm, ?_, ?_⟩
    · rw [decide_eq_true hzero, Bool.true_or, decide_eq_true rfl]
    rintro v rfl
    rw [decide_eq_true hzero, Bool.true_or, if_pos rfl]
    exact h.leads ht
  obtain ⟨hstale, hdangling, hrange⟩ := hguard hzero
  obtain ⟨A', t', B', s', hm, hcall, hkept, hc, hlast⟩ := myCoalesce_eq h.chain
  refine ⟨A', t', B', decide (blockSize s'.lastBlockSize t' B'
      - blockSize s.lastBlockSize t B = 0 ∨ t.addr = t'.addr), s',
    .inr ⟨hzero, hm⟩, ?_, hkept, hc, h.cached_kept hstale hm hkept,
    by rw [if_neg hzero, hlast], ?_, ?_⟩
  · simp only [Option.bind_eq_bind]
    rw [if_pos hzero, getBlockSize_eq h.chain, Option.bind_some, hcall,
      Option.bind_some]
    dsimp only
    rw [getBlockSize_eq hc, Option.bind_some]
  · rw [decide_eq_false hzero, Bool.false_or, hlast, decide_eq_decide]
    constructor
    · intro hflag
      by_contra hne
      exact hflag.elim (hm.after_ne_before h hrange hne) (Ne.symm hne)
    · exact fun haddr => .inr haddr.symm
  rintro v rfl
  rw [decide_eq_false hzero, Bool.false_or, hlast, hkept.headFree]
  obtain ⟨hlink, -⟩ := hm.thread_behind h.thread
  by_cases hne : t'.addr ≠ t.addr
  · -- merged with the previous block: the merged link stays
    rw [decide_eq_false (not_or.mpr ⟨hm.after_ne_before h hrange hne, hne.symm⟩),
      if_neg Bool.false_ne_true]
    exact hlink
  -- not merged with the previous block: the link is read again
  have haddr := not_not.mp hne
  rw [decide_eq_true (Or.inr haddr.symm), if_pos rfl]
  cases hm with
  | neither => exact h.leads ht
  | next _ _ x _ hA hx =>
      have hleads := h.leads ht
      rw [firstListed, if_pos hx] at hleads
      refine .inl (hleads.resolve_right fun heq => hdangling
        ⟨x.addr, ?_, ?_, heq ▸ leadsTo_of_lastLink h.chain⟩)
      · exact (freeAfter_iff h.chain).mpr ⟨x, rfl, hx, rfl⟩
      · intro hbefore
        obtain ⟨w, hw⟩ := hbefore
        obtain ⟨b, hb, hlisted, -⟩ := (freeBefore_iff h.chain).mp hw
        rw [hA b hb] at hlisted
        cases hlisted
  | prev _ w =>
      have := h.chain.before w (by simp)
      dsimp only at haddr
      omega
  | both _ w =>
      have := h.chain.before w (by simp)
      dsimp only at haddr
      omega

-- ========================================================= the whole call

/-- `last_block_size` after `Mem_Free` on `t`. -/
def freedSize (s : State) (coalesce : Int) (A : List Block) (t : Block)
    (B B' : List Block) : Int :=
  let credited := if B = [] then s.sizeOfLastAllocate else s.lastBlockSize
  if coalesce = 0 then credited else coalescedSize credited A t B B'

/-- The invariant once the block `t'` that results from a merge is FREE and
on the list. -/
theorem MergesIf.inv (hm : MergesIf coalesce A t B A' t' B')
    (h : Inv s (A ++ t :: B)) (hkept : Kept s s₂) {m' : Words} {v l m : Int}
    (hed : Edited s₂.mem m' (relink t'.addr A' ++ ⟨t'.addr, v, true⟩ :: B'))
    (hlink : v = NULL ∨ v = firstListed NULL B')
    (hcached : l ≠ NULL → m ≠ NULL →
      (l, true) ∈ shapes A' ++ (t'.addr, true) :: shapes B') :
    Inv { s₂ with
        mem := m'
        headFree := if A'.any Lib.Cell.listed then s₂.headFree else t'.addr
        largest := l
        secondLargest := m }
      (relink t'.addr A' ++ ⟨t'.addr, v, true⟩ :: B') := by
  obtain ⟨⟨after, hfront⟩, hbehind, hstart, hany⟩ := hm.around h.thread
  refine h.rebuild ⟨hkept.globalHead, hkept.actualSize, hkept.head,
    hed.base.trans hkept.base, hed.size.trans hkept.size⟩ hed.chain ?_ ?_ ?_ ?_
  · rw [← hstart]
    exact firstAddr_eq_of_addrs (by simp [addrs_relink])
  · refine Lib.threaded_append.mpr ⟨?_, hlink.imp_right fun hl => ⟨rfl, hl⟩,
      hbehind⟩
    rw [firstListed, if_pos rfl]
    exact hfront.relink
  · rw [Lib.firstListed_append, Lib.firstListed_relink, firstListed,
      if_pos rfl]
    cases hcase : A'.any Lib.Cell.listed with
    | true =>
        rw [if_pos rfl, hany hcase]
        exact hkept.headFree ▸ h.headFree
    | false =>
        rw [if_neg Bool.false_ne_true, Lib.firstListed_none
          (Lib.noneListed_iff.mpr hcase)]
        exact .inr rfl
  · intro hl hsec
    rw [shapes_append, shapes_relink, shapes_cons]
    exact hcached hl hsec

/-- `Mem_Free` on a block: either nothing happens, or the block, merged as
the guard allows, is FREE and on the list. -/
theorem freeBlock_eq (h : Inv s (A ++ t :: B)) (ht : t.listed = false)
    (hguard : coalesce ≠ 0 → ∀ s₁, freedState s t.addr = some s₁ →
      ¬StaleCache s₁ t.addr ∧ ¬DanglingLink s₁ t.addr ∧ InRange s₁ t.addr)
    (hrun : freeBlock fuel s t.addr coalesce = some (r, s')) :
    s' = s ∨ ∃ A' t' B' L', MergesIf coalesce A t B A' t' B' ∧ Inv s' L'
      ∧ shapes L' = shapes A' ++ (t'.addr, true) :: shapes B'
      ∧ Resized s s' (freedSize s coalesce A t B B')
        (if B = [] then -1 else s.sizeOfLastAllocate) := by
  obtain ⟨s₁, hgive, hs₁, hlast₁, hsola₁⟩ := giveBack_eq h.chain ht
    (blockSize s.lastBlockSize t B)
  have h₁ := h.credited hs₁
  rw [freeBlock, getBlockSize_eq h.chain] at hrun
  simp only [Option.bind_eq_bind, Option.bind_some] at hrun
  split at hrun
  case isTrue => exact .inl (Prod.mk.inj (Option.some.inj hrun)).2.symm
  case isFalse hsize =>
    have hfreed : freedState s t.addr = some s₁ := by
      rw [freedState, getBlockSize_eq h.chain, Option.bind_eq_bind,
        Option.bind_some, if_neg hsize, hgive]
    have hguard₁ := fun hz : coalesce ≠ 0 => hguard hz s₁ hfreed
    obtain ⟨A', t', B', flag, s₂, hm, hmerge, hkept, hc₂, hcached, hlast₂, -,
      hlink⟩ := coalesceFreed_eq h₁ ht hguard₁
    obtain ⟨m₃, hstatus, hbase₃, hsize₃, hc₃⟩ := setStatus_eq hc₂ true
    rw [if_pos rfl] at hstatus
    simp only [hgive, hmerge, hstatus, Option.bind_some] at hrun
    rcases enlist_eq fuel (s := { s₂ with mem := m₃ }) hc₃
      (decide (coalesce = 0) || flag) with ⟨hnone, -⟩ | ⟨m₄, hlist, hed⟩
    case inl =>
      dsimp only at hnone
      rw [hnone] at hrun
      cases hrun
    dsimp only at hlist
    simp only [hlist, Option.bind_some, Option.bind_eq_some_iff] at hrun
    obtain ⟨s₅, hre, hrun⟩ := hrun
    obtain ⟨-, rfl⟩ := Prod.mk.inj (Option.some.inj hrun)
    obtain ⟨l, m, rfl, hlm⟩ := recache_eq hre
    generalize hv : (if decide (coalesce = 0) || flag
      then lastLink s₂.headFree A' else t'.link) = v at hed
    have hed' : Edited s₂.mem m₄
        (relink t'.addr A' ++ ⟨t'.addr, v, true⟩ :: B') :=
      ⟨hed.base.trans hbase₃, hed.size.trans hsize₃, hed.chain⟩
    refine .inr ⟨A', t', B', _, hm, hm.inv h₁ hkept hed' (hlink v hv.symm) ?_,
      ?_, hkept.globalHead.trans hs₁.globalHead,
      hkept.actualSize.trans hs₁.actualSize, ?_,
      hkept.sizeOfLastAllocate.trans hsola₁⟩
    · -- the cached largest block is the freed one, or the one from before
      intro hl hsec
      rcases hlm hl hsec with heq | ⟨heq, hl₂, hm₂⟩
      · rw [heq]
        simp
      · have hin := hcached hl₂ hm₂
        rw [shapes_append, shapes_cons, List.mem_append,
          List.mem_cons] at hin
        rw [heq, List.mem_append, List.mem_cons]
        rcases hin with hin | hin | hin
        · exact .inl hin
        · have haddr : s₂.largest = t'.addr := congrArg Prod.fst hin
          exact .inr (.inl (congrArg (fun a => (a, true)) haddr))
        · exact .inr (.inr hin)
    · rw [shapes_append, shapes_relink, shapes_cons]
    · unfold freedSize
      rw [← hlast₁]
      exact hlast₂

-- =============================================================== the rule

/-- The header that `Mem_Free` computes from an allocation's address is its
block's, and the block is ALLOCATED. -/
theorem Owns.block {q : Int × Int} (h : Owns L q) :
    ∃ A t B, L = A ++ t :: B ∧ t.listed = false ∧ getHeader q.1 = t.addr := by
  obtain ⟨a, ha, hq, -⟩ := h
  obtain ⟨A, t, B, rfl, heq⟩ := mem_shapes ha
  obtain ⟨rfl, hf⟩ := Prod.mk.inj heq
  refine ⟨A, t, B, rfl, hf.symm, ?_⟩
  rw [getHeader, ← hq]
  omega

/-- The other allocations keep their blocks when `t` is freed. -/
theorem MergesIf.owns {q : Int × Int} (hm : MergesIf coalesce A t B A' t' B')
    (ht : t.listed = false) (hne : getHeader q.1 ≠ t.addr)
    (hL : shapes L = shapes A' ++ (t'.addr, true) :: shapes B')
    (hq : Owns (A ++ t :: B) q) : Owns L q := by
  have hmid : ∀ {p : Int × Bool}, p ∈ shapes (A' ++ t' :: B')
      ↔ p ∈ shapes A' ∨ p = (t'.addr, t'.listed) ∨ p ∈ shapes B' := by
    intro p
    rw [shapes_append, shapes_cons, List.mem_append, List.mem_cons]
  have haddr : ∀ {a : Int}, a + BLOCK_HEADER = q.1 → a ≠ t.addr := by
    intro a haq ha
    subst ha
    apply hne
    rw [getHeader, ← haq]
    omega
  refine hq.mono (fun a ha haq => ?_) fun a p _ _ hp _ => .inl ?_
  · -- an ALLOCATED block other than `t` is neither absorbed nor merged into
    have hin : (a, false) ∈ shapes (A' ++ t' :: B')
        ∧ (a, false) ≠ (t'.addr, t'.listed) := by
      rcases hm with ⟨-, rfl, rfl, rfl⟩ | ⟨-, hm⟩
      · exact ⟨ha, fun heq => haddr haq (congrArg Prod.fst heq)⟩
      · constructor
        · rcases hm.kept ha with hin | ⟨x, -, -, heq⟩ | ⟨heq, -⟩
          · exact hin
          · exact absurd (congrArg Prod.snd heq) Bool.false_ne_true
          · exact absurd (congrArg Prod.fst heq) (haddr haq)
        · intro heq
          rcases hm.front with ⟨-, ht', -⟩ | ⟨w, -, -, -, ht'⟩
          · exact haddr haq ((congrArg Prod.fst heq).trans ht')
          · rw [ht'] at heq
            exact absurd (congrArg Prod.snd heq) Bool.false_ne_true
    obtain ⟨hin, hne'⟩ := hin
    rw [hL, List.mem_append, List.mem_cons]
    rcases hmid.mp hin with h | h | h
    · exact .inl h
    · exact absurd h hne'
    · exact .inr (.inr h)
  · -- every header was there before
    have hsub : ∀ {p : Int × Bool}, p ∈ shapes (A' ++ t' :: B') →
        p ∈ shapes (A ++ t :: B) := by
      rcases hm with ⟨-, rfl, rfl, rfl⟩ | ⟨-, hm⟩
      · exact id
      · exact fun hp => hm.sublist.subset hp
    rw [hL, List.mem_append, List.mem_cons] at hp
    rcases hp with hp | rfl | hp
    · exact ⟨_, hsub (hmid.mpr (.inl hp))⟩
    · exact ⟨_, hsub (hmid.mpr (.inr (.inl rfl)))⟩
    · exact ⟨_, hsub (hmid.mpr (.inr (.inr hp)))⟩

/-- Condition `P` on a state and its chain goes through `Mem_Free`, given
what the guard says about the calls of `my_coalesce`. -/
structure Carries (P : State → List Block → Prop)
    (okPass okFreed : State → Int → Prop) : Prop where
  same : ∀ {s s' L}, P s L →
    Resized s s' s.lastBlockSize s.sizeOfLastAllocate → P s' L
  pass : ∀ {s s' A t B A' t' B'}, Inv s (A ++ t :: B) → P s (A ++ t :: B) →
    t.listed = true → okPass s t.addr → Merges A t B A' t' B' →
    Resized s s' (coalescedSize s.lastBlockSize A t B B')
      s.sizeOfLastAllocate → P s' (A' ++ t' :: B')
  range : ∀ {s s₁ A t B}, Inv s (A ++ t :: B) → P s (A ++ t :: B) →
    t.listed = false → freedState s t.addr = some s₁ → okFreed s₁ t.addr →
    InRange s₁ t.addr
  freed : ∀ {s s' A t B A' t' B' L' coalesce}, Inv s (A ++ t :: B) →
    P s (A ++ t :: B) → t.listed = false →
    (coalesce ≠ 0 → ∀ s₁, freedState s t.addr = some s₁ →
      okFreed s₁ t.addr) →
    MergesIf coalesce A t B A' t' B' →
    shapes L' = shapes A' ++ (t'.addr, true) :: shapes B' →
    Resized s s' (freedSize s coalesce A t B B')
      (if B = [] then -1 else s.sizeOfLastAllocate) → P s' L'

variable {P : State → List Block → Prop} {okPass okFreed : State → Int → Prop}
  {ptr : Int}

theorem Inv.flag (h : Inv s L) (n : Int) :
    Inv { s with needGlobalCoalesce := n } L :=
  h.credited ⟨rfl, rfl, rfl, rfl, rfl, rfl, rfl⟩

/-- A guarded global pass. -/
theorem Carries.coalesceAll (hP : Carries P okPass okFreed) (h : Inv s L)
    (hPs : P s L)
    (hcalls : ∀ c ∈ passCalls fuel s.head s,
      ¬StaleCache c.1 c.2 ∧ okPass c.1 c.2)
    (hrun : coalesceAll fuel s = some s') :
    ∃ L', Inv s' L' ∧ P s' L' ∧ ∀ q, Owns L q → Owns L' q := by
  unfold Heap.coalesceAll at hrun
  rw [if_neg (not_not.mpr h.ready)] at hrun
  simp only [Option.bind_eq_bind, Option.bind_eq_some_iff] at hrun
  obtain ⟨s₁, hpass, hrun⟩ := hrun
  obtain rfl := Option.some.inj hrun
  have hstart : s.head = NULL ∨ ∃ f, (s.head, f) ∈ shapes L := by
    rw [h.head]
    cases L with
    | nil => exact .inl rfl
    | cons b rest => exact .inr ⟨b.listed, by simp [shapes]⟩
  obtain ⟨L', h', hPs', hown⟩ := coalesceFrom_rule
    (I := fun s₂ L₂ => Inv s₂ L₂ ∧ P s₂ L₂ ∧ ∀ q, Owns L q → Owns L₂ q)
    (fun hI => hI.1) (fun hI ht hstale hok => by
      obtain ⟨A', t', B', s₂, hm, -, hcall, h₂, hsize, -⟩ := hI.1.coalesce
        ht hstale
      exact ⟨A', t', B', s₂, hcall, h₂, hP.pass hI.1 hI.2.1 ht hok hm hsize,
        fun q hq => hm.owns ht (hI.2.2 q hq)⟩)
    fuel s.head s s₁ L ⟨h, hPs, fun _ hq => hq⟩ hstart hcalls hpass
  exact ⟨L', h'.flag _, hP.same hPs' ⟨rfl, rfl, rfl, rfl⟩, hown⟩

/-- The pass that a freeing call makes first. -/
theorem Carries.pending (hP : Carries P okPass okFreed) (h : Inv s L)
    (hPs : P s L) (hcalls : coalesce ≠ 0 → s.needGlobalCoalesce = TRUE →
      ∀ c ∈ passCalls fuel s.head s, ¬StaleCache c.1 c.2 ∧ okPass c.1 c.2)
    (hrun : pendingCoalesce fuel s coalesce = some s') :
    ∃ L', Inv s' L' ∧ P s' L' ∧ ∀ q, Owns L q → Owns L' q := by
  unfold pendingCoalesce at hrun
  split at hrun
  case isTrue hboth => exact hP.coalesceAll h hPs (hcalls hboth.2 hboth.1) hrun
  case isFalse =>
    obtain rfl := Option.some.inj hrun
    exact ⟨L, h, hPs, fun _ hq => hq⟩

/-- A guarded `Mem_Free` of an allocation, or of `NULL`: the invariant is
kept, and so are the other allocations. -/
theorem Carries.memFree (hP : Carries P okPass okFreed) (h : Inv s L)
    (hPs : P s L) (hptr : ptr = NULL ∨ ∃ q, Owns L q ∧ q.1 = ptr)
    (hok : FreeOk fuel s okPass okFreed ptr coalesce)
    (hrun : memFree fuel s ptr coalesce = some (r, s')) :
    ∃ L', Inv s' L' ∧ P s' L' ∧ ∀ q, Owns L q → q.1 ≠ ptr → Owns L' q := by
  unfold Heap.memFree at hrun
  by_cases hnull : ptr = NULL
  · rw [if_pos hnull] at hrun
    split at hrun
    case isTrue hzero =>
      simp only [Option.bind_eq_bind, Option.bind_eq_some_iff] at hrun
      obtain ⟨s₁, hall, hrun⟩ := hrun
      obtain ⟨-, rfl⟩ := Prod.mk.inj (Option.some.inj hrun)
      obtain ⟨L', h', hPs', hown⟩ := hP.coalesceAll h hPs
        (hok.pass hzero (.inl hnull)) hall
      exact ⟨L', h', hPs', fun q hq _ => hown q hq⟩
    case isFalse =>
      obtain ⟨-, rfl⟩ := Prod.mk.inj (Option.some.inj hrun)
      exact ⟨L, h, hPs, fun q hq _ => hq⟩
  rw [if_neg hnull] at hrun
  simp only [Option.bind_eq_bind, Option.bind_eq_some_iff] at hrun
  obtain ⟨s₁, hpending, valid, -, hrun⟩ := hrun
  obtain ⟨L₁, h₁, hPs₁, hown₁⟩ := hP.pending h hPs
    (fun hz hneed => hok.pass hz (.inr hneed)) hpending
  generalize hs₂ : (if coalesce = 0 then
    { s₁ with needGlobalCoalesce := TRUE } else s₁) = s₂ at hrun
  obtain ⟨h₂, hPs₂⟩ : Inv s₂ L₁ ∧ P s₂ L₁ := by
    rw [← hs₂]
    split
    · exact ⟨h₁.flag _, hP.same hPs₁ ⟨rfl, rfl, rfl, rfl⟩⟩
    · exact ⟨h₁, hPs₁⟩
  cases valid with
  | false =>
      obtain ⟨-, rfl⟩ := Prod.mk.inj (Option.some.inj hrun)
      exact ⟨L₁, h₂, hPs₂, fun q hq _ => hown₁ q hq⟩
  | true =>
      obtain ⟨q, hq, hqp⟩ := hptr.resolve_left hnull
      obtain ⟨A, t, B, rfl, ht, haddr⟩ := (hown₁ q hq).block
      rw [hqp] at haddr
      rw [if_pos rfl, haddr] at hrun
      have hcall : coalesce ≠ 0 → ∀ s₃, freedState s₂ t.addr = some s₃ →
          ¬StaleCache s₃ t.addr ∧ ¬DanglingLink s₃ t.addr
            ∧ okFreed s₃ t.addr := by
        intro hz s₃ hs₃
        rw [← hs₂, if_neg hz, ← haddr] at hs₃
        rw [← haddr]
        exact hok.freed hz hnull s₁ s₃ hpending hs₃
      have hrange : coalesce ≠ 0 → ∀ s₃, freedState s₂ t.addr = some s₃ →
          ¬StaleCache s₃ t.addr ∧ ¬DanglingLink s₃ t.addr
            ∧ InRange s₃ t.addr := fun hz s₃ hs₃ => by
        obtain ⟨hstale, hdangling, hokt⟩ := hcall hz s₃ hs₃
        exact ⟨hstale, hdangling, hP.range h₂ hPs₂ ht hs₃ hokt⟩
      rcases freeBlock_eq h₂ ht hrange hrun with
        rfl | ⟨A', t', B', L', hm, h', hL', hsize⟩
      · exact ⟨_, h₂, hPs₂, fun q hq _ => hown₁ q hq⟩
      · refine ⟨L', h', hP.freed h₂ hPs₂ ht
          (fun hz s₃ hs₃ => (hcall hz s₃ hs₃).2.2) hm hL' hsize,
          fun q' hq' hne => hm.owns ht ?_ hL' (hown₁ q' hq')⟩
        rw [← haddr, getHeader, getHeader]
        omega

end OperatingSystem.Heap
