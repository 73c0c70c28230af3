/-
What `my_coalesce` does to the chain.

`Merges A t B A' t' B'` says how the chain `A ++ t :: B` looks after the
call on `t`: one of four cases, by which neighbours are FREE. In a chain
the call always returns (`myCoalesce_eq`), whatever the free list and the
cached pointers look like, and it returns the block at the lowest address.

The recorded size of the last block grows by the size the block had when
the block ends up last, also when it was last before (`coalescedSize`);
nothing else outside the headers changes, except that a cached pointer may
be dropped (`Kept`).
-/
import OperatingSystem.Heap.Chain

namespace OperatingSystem.Heap

open Lib (Words i64)

variable {m m' : Words} {s s' : State} {A A' B B' : List Block}
  {t t' w x : Block}

-- ========================================================== the two halves

/-- `m'` is the same mapping and holds the chain `L`. -/
structure Edited (m m' : Words) (L : List Block) : Prop where
  base : m'.base = m.base
  size : m'.size = m.size
  chain : Chain m' L

/-- What coalescing leaves alone: everything but the headers, the recorded
size of the last block and the cached pointers, which it can only drop. -/
structure Kept (s s' : State) : Prop where
  globalHead : s'.globalHead = s.globalHead
  head : s'.head = s.head
  headFree : s'.headFree = s.headFree
  actualSize : s'.actualSize = s.actualSize
  remainingSize : s'.remainingSize = s.remainingSize
  base : s'.mem.base = s.mem.base
  size : s'.mem.size = s.mem.size
  largest : s'.largest = s.largest ∨ s'.largest = NULL
  secondLargest : s'.secondLargest = s.secondLargest ∨ s'.secondLargest = NULL
  sizeOfLastAllocate : s'.sizeOfLastAllocate = s.sizeOfLastAllocate
  needGlobalCoalesce : s'.needGlobalCoalesce = s.needGlobalCoalesce
  mError : s'.mError = s.mError

theorem Kept.refl (s : State) : Kept s s :=
  ⟨rfl, rfl, rfl, rfl, rfl, rfl, rfl, .inl rfl, .inl rfl, rfl, rfl, rfl⟩

theorem Kept.trans {s'' : State} (h : Kept s s') (h' : Kept s' s'') :
    Kept s s'' where
  globalHead := h'.globalHead.trans h.globalHead
  head := h'.head.trans h.head
  headFree := h'.headFree.trans h.headFree
  actualSize := h'.actualSize.trans h.actualSize
  remainingSize := h'.remainingSize.trans h.remainingSize
  base := h'.base.trans h.base
  size := h'.size.trans h.size
  largest := by
    rcases h'.largest with hl | hl
    · rw [hl]
      exact h.largest
    · exact .inr hl
  secondLargest := by
    rcases h'.secondLargest with hl | hl
    · rw [hl]
      exact h.secondLargest
    · exact .inr hl
  sizeOfLastAllocate := h'.sizeOfLastAllocate.trans h.sizeOfLastAllocate
  needGlobalCoalesce := h'.needGlobalCoalesce.trans h.needGlobalCoalesce
  mError := h'.mError.trans h.mError

theorem kept_mem (hbase : m.base = s.mem.base) (hsize : m.size = s.mem.size) :
    Kept s { s with mem := m } :=
  ⟨rfl, rfl, rfl, rfl, rfl, hbase, hsize, .inl rfl, .inl rfl, rfl, rfl, rfl⟩

theorem kept_forget (s : State) (p : Int) : Kept s (forget s p) := by
  unfold forget
  split
  case isTrue =>
    exact ⟨rfl, rfl, rfl, rfl, rfl, rfl, rfl, .inr rfl, .inl rfl, rfl, rfl,
      rfl⟩
  case isFalse =>
    split
    case isTrue =>
      exact ⟨rfl, rfl, rfl, rfl, rfl, rfl, rfl, .inl rfl, .inr rfl, rfl, rfl,
        rfl⟩
    case isFalse => exact .refl s

theorem kept_growLast (s : State) (next size : Int) :
    Kept s (growLast s next size) := by
  unfold growLast
  split
  case isTrue =>
    exact ⟨rfl, rfl, rfl, rfl, rfl, rfl, rfl, .inl rfl, .inl rfl, rfl, rfl,
      rfl⟩
  case isFalse => exact .refl s

@[simp] theorem forget_mem (s : State) (p : Int) : (forget s p).mem = s.mem := by
  unfold forget
  split
  case isTrue => rfl
  case isFalse => split <;> rfl

@[simp] theorem forget_lastBlockSize (s : State) (p : Int) :
    (forget s p).lastBlockSize = s.lastBlockSize := by
  unfold forget
  split
  case isTrue => rfl
  case isFalse => split <;> rfl

@[simp] theorem growLast_mem (s : State) (next size : Int) :
    (growLast s next size).mem = s.mem := by
  unfold growLast
  split <;> rfl

/-- The header behind `t` is taken out of the chain. -/
theorem linkTo_eq (h : Chain s.mem (A ++ t :: x :: B)) :
    ∃ m', linkTo s t.addr (firstAddr B) = some { s with mem := m' }
      ∧ Edited s.mem m' (A ++ t :: B) := by
  have hsub : (A ++ t :: B).Sublist (A ++ t :: x :: B) :=
    List.Sublist.append_left (.cons_cons _ (.cons _ (.refl _))) _
  have hr := h.row
  rw [headers, List.map_append, List.map_cons, List.map_cons] at hr
  obtain ⟨m', hrun, hbase, hsize, hr', hlink⟩ := hr.linkTo
  have hfirst : nextOf (headers B) = firstAddr B := by
    rw [nextOf, headers, List.map_map]
    rfl
  rw [← hfirst]
  refine ⟨m', hrun, hbase, hsize, Row.chain ?_
    (h.spaced.sublist (hsub.map _)) fun b hb => ?_⟩
  · rw [headers, List.map_append, List.map_cons]
    exact hr'
  · have hmem : (⟨b.addr, statusOf b⟩ : Header) ∈ headers (A ++ t :: B) :=
      List.mem_map_of_mem hb
    rw [headers, List.map_append, List.map_cons] at hmem
    exact (hlink _ hmem).trans (h.holds b (hsub.subset hb)).link

/-- A write of `next_free`. -/
theorem setNextFree_eq (h : Chain s.mem (A ++ t :: B)) (v : Int) :
    ∃ m', s.setNextFree t.addr v = some { s with mem := m' }
      ∧ Edited s.mem m' (A ++ { t with link := v } :: B) := by
  have hm := h.mem.mapped (k := 16) (by decide) (by decide) (by decide)
  refine ⟨s.mem.put (t.addr + 16) v, ?_, rfl, rfl, h.setLink v⟩
  rw [State.setNextFree, State.store, Words.store_of_mapped hm,
    Option.map_some]

/-- A write of `status`. -/
theorem setStatus_eq (h : Chain s.mem (A ++ t :: B)) (free : Bool) :
    ∃ m', s.setStatus t.addr (if free then FREE else ALLOCATED)
        = some { s with mem := m' }
      ∧ Edited s.mem m' (A ++ { t with listed := free } :: B) := by
  have hm := h.mem.mapped (k := 24) (by decide) (by decide) (by decide)
  refine ⟨s.mem.put (t.addr + 24) (Lib.withLow (s.mem.word (t.addr + 24))
    (if free then FREE else ALLOCATED)), ?_, rfl, rfl, h.setStatus free⟩
  rw [State.setStatus, Words.load_of_mapped hm, Option.bind_eq_bind,
    Option.bind_some, State.store, Words.store_of_mapped hm, Option.map_some]

/-- The first block of `B` is not FREE. -/
def FirstTaken (B : List Block) : Prop := ∀ b ∈ B.head?, b.listed = false

/-- The last block of `A` is not FREE. -/
def LastTaken (A : List Block) : Prop := ∀ a ∈ A.getLast?, a.listed = false

theorem absorbNext_taken (h : Chain s.mem (A ++ t :: B))
    (hB : FirstTaken B) : absorbNext s t.addr = some s := by
  unfold absorbNext
  simp only [Option.bind_eq_bind]
  rw [State.next_eq h, Option.bind_some]
  cases B with
  | nil => exact if_pos rfl
  | cons x rest =>
      have hx : Holds s.mem x := h.holds x (by simp)
      rw [firstAddr_cons, if_neg hx.ne_null, State.status_eq hx,
        Option.bind_some, statusOf, hB x rfl]
      exact if_pos (by decide)

theorem absorbNext_free (h : Chain s.mem (A ++ t :: x :: B))
    (hx : x.listed = true) :
    ∃ m', absorbNext s t.addr
        = some (forget { s with mem := m' } (firstAddr B))
      ∧ Edited s.mem m' (A ++ { t with link := x.link } :: B) := by
  have hhx : Holds s.mem x := h.holds x (by simp)
  obtain ⟨m₁, hset, hbase₁, hsize₁, hc₁⟩ := setNextFree_eq h x.link
  have hnext := State.next_eq (s := { s with mem := m₁ }) hc₁.shift
  obtain ⟨m₂, hlink, hbase₂, hsize₂, hc₂⟩ := linkTo_eq
    (s := { s with mem := m₁ }) hc₁
  refine ⟨m₂, ?_, hbase₂.trans hbase₁, hsize₂.trans hsize₁, hc₂⟩
  unfold absorbNext
  simp only [Option.bind_eq_bind]
  rw [State.next_eq h, Option.bind_some, firstAddr_cons,
    if_neg hhx.ne_null, State.status_eq hhx, Option.bind_some, statusOf,
    if_pos hx, if_neg (not_not.mpr rfl), State.nextFree_eq hhx,
    Option.bind_some, hset, Option.bind_some, hnext, Option.bind_some]
  dsimp only at hlink ⊢
  rw [hlink, Option.bind_some]

theorem absorbIntoPrev_taken (h : Chain s.mem (A ++ t :: B))
    (hA : LastTaken A) (size : Int) :
    absorbIntoPrev s t.addr size = some (t.addr, s) := by
  unfold absorbIntoPrev
  simp only [Option.bind_eq_bind]
  rw [State.prev_eq h, Option.bind_some]
  rcases List.eq_nil_or_concat A with rfl | ⟨A', w, rfl⟩
  · exact if_pos rfl
  · have hw : Holds s.mem w := h.holds w (by simp)
    have htaken : w.listed = false := hA w (by simp)
    rw [List.concat_eq_append, lastAddr_concat, if_neg hw.ne_null,
      State.status_eq hw, Option.bind_some, statusOf, htaken]
    exact if_pos (by decide)

theorem absorbIntoPrev_free (h : Chain s.mem (A ++ w :: t :: B))
    (hw : w.listed = true) (size : Int) :
    ∃ m', absorbIntoPrev s t.addr size = some (w.addr,
        growLast (forget { s with mem := m' } w.addr) (firstAddr B) size)
      ∧ Edited s.mem m' (A ++ { w with link := t.link } :: B) := by
  have h' := h.shift
  obtain ⟨m₁, hset, hbase₁, hsize₁, hc₁⟩ := setNextFree_eq h t.link
  have hnext := State.next_eq (s := { s with mem := m₁ }) hc₁.shift
  obtain ⟨m₂, hlink, hbase₂, hsize₂, hc₂⟩ := linkTo_eq
    (s := { s with mem := m₁ }) hc₁
  refine ⟨m₂, ?_, hbase₂.trans hbase₁, hsize₂.trans hsize₁, hc₂⟩
  unfold absorbIntoPrev
  simp only [Option.bind_eq_bind]
  rw [State.prev_eq h', Option.bind_some,
    lastAddr_concat, if_neg h.mem.ne_null, State.status_eq h.mem,
    Option.bind_some, statusOf, if_pos hw, if_neg (not_not.mpr rfl),
    State.nextFree_eq h'.mem, Option.bind_some, hset, Option.bind_some, hnext,
    Option.bind_some]
  dsimp only at hlink ⊢
  rw [hlink, Option.bind_some]

-- ========================================================== the whole call

/-- The chain `A ++ t :: B` after `my_coalesce` on `t`: block `t'` between
`A'` and `B'`. -/
inductive Merges : List Block → Block → List Block →
    List Block → Block → List Block → Prop
  | neither (A : List Block) (t : Block) (B : List Block)
      (hA : LastTaken A) (hB : FirstTaken B) : Merges A t B A t B
  | next (A : List Block) (t x : Block) (B : List Block)
      (hA : LastTaken A) (hx : x.listed = true) :
      Merges A t (x :: B) A { t with link := x.link } B
  | prev (A : List Block) (w t : Block) (B : List Block)
      (hw : w.listed = true) (hB : FirstTaken B) :
      Merges (A ++ [w]) t B A { w with link := t.link } B
  | both (A : List Block) (w t x : Block) (B : List Block)
      (hw : w.listed = true) (hx : x.listed = true) :
      Merges (A ++ [w]) t (x :: B) A { w with link := x.link } B

/-- `last_block_size` after `my_coalesce` on `t`, `B'` being what follows
the merged block. -/
def coalescedSize (lastBlockSize : Int) (A : List Block) (t : Block)
    (B B' : List Block) : Int :=
  if B' = [] then
    let grown := i64 (lastBlockSize + blockSize lastBlockSize t B)
    match A.getLast? with
    | some w => if w.listed then i64 (grown + (t.addr - (w.addr + 32)))
        else grown
    | none => grown
  else lastBlockSize

theorem coalescedSize_taken {last : Int} (hA : LastTaken A) :
    coalescedSize last A t B [] = i64 (last + blockSize last t B) := by
  rw [coalescedSize, if_pos rfl]
  cases hget : A.getLast? with
  | none => rfl
  | some w =>
      dsimp only
      rw [hA w hget, if_neg Bool.false_ne_true]

theorem coalescedSize_free {last : Int} (hw : w.listed = true) :
    coalescedSize last (A ++ [w]) t B []
      = i64 (i64 (last + blockSize last t B) + (t.addr - (w.addr + 32))) := by
  rw [coalescedSize, if_pos rfl, List.getLast?_concat]
  dsimp only
  rw [if_pos hw]

theorem absorbNext_eq (h : Chain s.mem (A ++ t :: B)) :
    ∃ t₁ B₁ s₁, absorbNext s t.addr = some s₁ ∧ Kept s s₁
      ∧ Chain s₁.mem (A ++ t₁ :: B₁) ∧ s₁.lastBlockSize = s.lastBlockSize
      ∧ (t₁ = t ∧ B₁ = B ∧ FirstTaken B
        ∨ ∃ x, B = x :: B₁ ∧ x.listed = true
          ∧ t₁ = { t with link := x.link }) := by
  cases B with
  | nil =>
      exact ⟨t, [], s, absorbNext_taken h nofun, .refl s, h, rfl,
        .inl ⟨rfl, rfl, nofun⟩⟩
  | cons x rest =>
      cases hx : x.listed with
      | false =>
          have hfirst : FirstTaken (x :: rest) := by
            intro b hb
            cases hb
            exact hx
          exact ⟨t, x :: rest, s, absorbNext_taken h hfirst, .refl s, h, rfl,
            .inl ⟨rfl, rfl, hfirst⟩⟩
      | true =>
          obtain ⟨m', hrun, hbase, hsize, hc⟩ := absorbNext_free h hx
          refine ⟨_, rest, _, hrun,
            (kept_mem hbase hsize).trans (kept_forget _ _), ?_, ?_,
            .inr ⟨x, rfl, hx, rfl⟩⟩
          · rw [forget_mem]
            exact hc
          · rw [forget_lastBlockSize]

theorem absorbIntoPrev_eq (h : Chain s.mem (A ++ t :: B)) (size : Int) :
    ∃ A₁ t₁ s₁, absorbIntoPrev s t.addr size = some (t₁.addr, s₁)
      ∧ Kept s s₁ ∧ Chain s₁.mem (A₁ ++ t₁ :: B)
      ∧ (A₁ = A ∧ t₁ = t ∧ s₁ = s ∧ LastTaken A
        ∨ ∃ w, A = A₁ ++ [w] ∧ w.listed = true
          ∧ t₁ = { w with link := t.link }
          ∧ s₁.lastBlockSize
            = (growLast s (firstAddr B) size).lastBlockSize) := by
  rcases List.eq_nil_or_concat A with rfl | ⟨A', w, rfl⟩
  · exact ⟨[], t, s, absorbIntoPrev_taken h nofun size, .refl s, h,
      .inl ⟨rfl, rfl, rfl, nofun⟩⟩
  · rw [List.concat_eq_append] at h ⊢
    cases hw : w.listed with
    | false =>
        have hlast : LastTaken (A' ++ [w]) := by
          intro a ha
          rw [List.getLast?_concat] at ha
          cases ha
          exact hw
        exact ⟨_, t, s, absorbIntoPrev_taken h hlast size, .refl s, h,
          .inl ⟨rfl, rfl, rfl, hlast⟩⟩
    | true =>
        rw [List.append_assoc, List.singleton_append] at h
        obtain ⟨m', hrun, hbase, hsize, hc⟩ := absorbIntoPrev_free h hw size
        refine ⟨A', { w with link := t.link }, _, hrun,
          ((kept_mem hbase hsize).trans (kept_forget _ _)).trans
            (kept_growLast _ _ _), ?_, .inr ⟨w, rfl, hw, rfl, ?_⟩⟩
        · rw [growLast_mem, forget_mem]
          exact hc
        · unfold growLast
          split
          · rw [forget_lastBlockSize]
          · rw [forget_lastBlockSize]

/-- On a block of a chain `my_coalesce` returns, and merges it with its
FREE neighbours. -/
theorem myCoalesce_eq (h : Chain s.mem (A ++ t :: B)) :
    ∃ A' t' B' s', Merges A t B A' t' B'
      ∧ myCoalesce s t.addr = some (t'.addr, s') ∧ Kept s s'
      ∧ Chain s'.mem (A' ++ t' :: B')
      ∧ s'.lastBlockSize
        = coalescedSize s.lastBlockSize A t B B' := by
  obtain ⟨t₁, B₁, s₁, hrun₁, hkept₁, hc₁, hlast₁, hnext⟩ := absorbNext_eq h
  have haddr : t₁.addr = t.addr := by
    rcases hnext with ⟨rfl, -, -⟩ | ⟨x, -, -, rfl⟩ <;> rfl
  have hnull := hc₁.firstAddr_eq_null
  -- the state once the recorded size has grown for the first time
  generalize hs₂ : growLast s₁ (firstAddr B₁)
    (blockSize s.lastBlockSize t B) = s₂
  have hkept₂ : Kept s s₂ := hs₂ ▸ hkept₁.trans (kept_growLast _ _ _)
  have hc₂ : Chain s₂.mem (A ++ t₁ :: B₁) := by
    rw [← hs₂, growLast_mem]
    exact hc₁
  have hlast₂ : s₂.lastBlockSize = if B₁ = [] then
      i64 (s.lastBlockSize + blockSize s.lastBlockSize t B)
      else s.lastBlockSize := by
    rw [← hs₂, growLast, ← hlast₁]
    by_cases hB : B₁ = []
    · rw [if_pos (hnull.mpr hB), if_pos hB]
    · rw [if_neg (mt hnull.mp hB), if_neg hB]
  -- what the second half is told is the previous block's size
  obtain ⟨size, hsize, hprevSize⟩ : ∃ size,
      getBlockSize s₂ (lastAddr A) = some size
        ∧ ∀ A' w, A = A' ++ [w] → size = t.addr - (w.addr + 32) := by
    rcases List.eq_nil_or_concat A with rfl | ⟨A', w, rfl⟩
    · exact ⟨_, if_pos rfl, fun A' w h => by simp at h⟩
    · rw [List.concat_eq_append] at hc₂ ⊢
      rw [List.append_assoc, List.singleton_append] at hc₂
      refine ⟨_, by rw [lastAddr_concat]; exact getBlockSize_eq hc₂, ?_⟩
      intro A'' w' heq
      obtain ⟨rfl, rfl⟩ : A' = A'' ∧ w = w' := by simpa using heq
      rw [blockSize, haddr]
  have hopen : myCoalesce s t.addr = absorbIntoPrev s₂ t₁.addr size := by
    have hnext₁ := State.next_eq hc₁
    have hprev₂ := State.prev_eq hc₂
    rw [haddr] at hnext₁ hprev₂
    unfold myCoalesce
    simp only [Option.bind_eq_bind]
    rw [if_neg h.mem.ne_null, getBlockSize_eq h, Option.bind_some, hrun₁,
      Option.bind_some, hnext₁, Option.bind_some, hs₂, hprev₂,
      Option.bind_some, hsize, Option.bind_some, haddr]
  obtain ⟨A', t', s', hrun, hkept, hc, hprev⟩ := absorbIntoPrev_eq hc₂ size
  refine ⟨A', t', B₁, s', ?_, hopen.trans hrun, hkept₂.trans hkept, hc, ?_⟩
  · rcases hnext with ⟨rfl, rfl, hB⟩ | ⟨x, rfl, hx, rfl⟩
    · rcases hprev with ⟨rfl, rfl, -, hA⟩ | ⟨w, rfl, hw, rfl, -⟩
      · exact .neither _ _ _ hA hB
      · exact .prev _ _ _ _ hw hB
    · rcases hprev with ⟨rfl, rfl, -, hA⟩ | ⟨w, rfl, hw, rfl, -⟩
      · exact .next _ _ _ _ hA hx
      · exact .both _ _ _ _ _ hw hx
  · by_cases hB : B₁ = []
    · subst hB
      rw [if_pos rfl] at hlast₂
      rcases hprev with ⟨rfl, -, rfl, hA⟩ | ⟨w, rfl, hw, -, hlast⟩
      · rw [coalescedSize_taken hA, hlast₂]
      · rw [coalescedSize_free hw, hlast, growLast, firstAddr_nil, if_pos rfl]
        dsimp only
        rw [hlast₂, hprevSize A' w rfl]
    · rw [if_neg hB] at hlast₂
      rw [coalescedSize, if_neg hB]
      rcases hprev with ⟨rfl, -, rfl, hA⟩ | ⟨w, rfl, hw, -, hlast⟩
      · exact hlast₂
      · rw [hlast, growLast, if_neg (mt hnull.mp hB), hlast₂]

end OperatingSystem.Heap
