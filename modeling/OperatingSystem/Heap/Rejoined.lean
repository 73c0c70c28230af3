/-
What `Mem_Free(ptr, 1)` makes of a well-formed heap.

# The free list

`my_coalesce` gives the merged block its `next_free`, and `Mem_Free` then
decides with `coalesce_flag` whether to read it off the list again. If the
previous block has absorbed the freed one the flag is off: the merged block
has had its place on the list all along, and what is left of `Mem_Free`
writes only what is there already. But the freed block's own `next_free` is
`NULL`, so unless a FREE block behind has lent it another one the list ends
here. If the previous block has not, the flag is on, and the list leads to
the next FREE block: the one that has just been absorbed, if one has.

# The cached pointers

`my_coalesce` redirects `next` before it compares, so it drops a cached
pointer to the block behind the one that goes (`forget`). A cached pointer to
a header that is gone stays, unless the ranking of the merged block at the
end of `Mem_Free` moves it out (`Displaced`).
-/
import OperatingSystem.Heap.WellFormed
import OperatingSystem.Heap.WorstFit

namespace OperatingSystem.Heap

open Lib (Words i32 i64 firstListed lastListed lastLink relink NoneListed
  Unbroken)

variable {s s' s₁ s₂ : State} {A A' B B' L L' : List Block} {t t' w x : Block}
  {fuel : Nat} {a p q y size : Int}

-- =========================================================== vocabulary

/-- The blocks behind the merged one. -/
def behind : List Block → List Block
  | [] => []
  | x :: rest => if x.listed then rest else x :: rest

/-- A merge of `t` absorbs the header at `a`. -/
def Gone (A : List Block) (t : Block) (B : List Block) (a : Int) : Prop :=
  (∃ x ∈ B.head?, x.listed = true ∧ a = x.addr)
    ∨ a = t.addr ∧ ∃ w ∈ A.getLast?, w.listed = true

/-- `last_block_size` when `Mem_Free` calls `my_coalesce` on a block in front
of `B`. -/
def credited (s : State) (B : List Block) : Int :=
  if B = [] then s.sizeOfLastAllocate else s.lastBlockSize

/-- In `s'` block `t` and its FREE neighbours are one FREE block, the heap is
well formed, and nothing leads to a header that is gone. -/
def Rejoined (s' : State) (A : List Block) (t : Block) (B : List Block) :
    Prop :=
  ∃ A' t' B' L', Merges A t B A' t' B' ∧ WellFormed s' L'
    ∧ shapes L' = shapes A' ++ (t'.addr, true) :: shapes B'
    ∧ ∀ a, Gone A t B a → a ∉ L'.map Lib.Cell.addr ∧ s'.largest ≠ a
      ∧ s'.secondLargest ≠ a

/-- A merge with the previous block drops a cached largest block at `a`. -/
def Dropped (A B : List Block) (a : Int) : Prop :=
  (∃ w ∈ A.getLast?, a = w.addr) ∨ ¬FirstTaken B ∧ a = firstAddr (behind B)

/-- The merged block, which the previous block has become, takes the place of
`second_largest`. If it is the last block it has the size of the one it takes
the place of, and must be larger than `largest`. -/
def Displaced (s : State) (A : List Block) (t : Block) (B : List Block) :
    Prop :=
  s.largest ≠ NULL ∧ ¬Dropped A B s.largest
    ∧ (behind B = [] → (∀ w ∈ A.getLast?, s.largest ≠ w.addr + 16)
      ∧ ∃ k, getBlockSize { s with
          lastBlockSize := coalescedSize (credited s B) A t B [] } s.largest
          = some k
        ∧ k < coalescedSize (credited s B) A t B [])

/-- Freeing `t` with its neighbours goes right. -/
structure Joins (s : State) (A : List Block) (t : Block) (B : List Block) :
    Prop where
  valid : isValidAddr s (t.addr + BLOCK_HEADER) = some true
  /-- The block's size is not taken for an error. -/
  sized : blockSize s.lastBlockSize t B ≠ RETURN_WITH_ERROR
  /-- The next block is not absorbed alone, -/
  absorbs : ¬FirstTaken B → ¬LastTaken A
  /-- nor the block itself in front of other FREE ones, -/
  ends : ¬LastTaken A → FirstTaken B → NoneListed B
  /-- nor without a change of size. -/
  grows : ¬LastTaken A → behind B = [] →
    coalescedSize (credited s B) A t B [] ≠ blockSize (credited s B) t B
  largest : ∀ a, Gone A t B a → s.largest ≠ a
  second : ∀ a, Gone A t B a → s.secondLargest = a → Displaced s A t B

-- =============================================== writes that change nothing

theorem setStatus_same (h : Chain s.mem (A ++ t :: B)) (ht : t.listed = true) :
    s.setStatus t.addr FREE = some s := by
  have hm := h.mem.mapped (k := 24) (by decide) (by decide) (by decide)
  have hstatus := h.mem.status
  rw [statusOf, if_pos ht] at hstatus
  rw [State.setStatus, Words.load_of_mapped hm, Option.bind_eq_bind,
    Option.bind_some, State.store, Words.store_of_mapped hm, Option.map_some,
    Words.put_word]
  unfold Lib.withLow
  rw [hstatus]
  unfold FREE
  omega

/-- A block that the list leads to is put where it is. -/
theorem enlist_same (fuel : Nat) (h : Chain s.mem (A ++ t :: B))
    (hA : Unbroken NULL t.addr A)
    (hfree : s.headFree = firstListed t.addr A) :
    enlist fuel s t.addr false = some s
      ∨ enlist fuel s t.addr false = none ∧ fuel ≤ A.length := by
  unfold enlist
  simp only [Option.bind_eq_bind]
  rw [State.prev_eq h, Option.bind_some]
  rcases nearestFree_eq fuel h with hrun | ⟨hrun, hle⟩
  case inr =>
    rw [hrun]
    exact .inr ⟨rfl, hle⟩
  left
  rw [hrun, Option.bind_some]
  rcases Lib.exists_last A with hnone | ⟨D, q, E, rfl, hq, hE⟩
  · rw [Lib.firstListed_none hnone] at hfree
    rw [Lib.lastListed_none hnone, if_neg (not_not.mpr rfl),
      if_neg Bool.false_ne_true, Option.bind_some, ← hfree]
  · have hqc := h.regroup
    have hm := hqc.mem.mapped (k := 16) (by decide) (by decide) (by decide)
    obtain ⟨-, hlink, -⟩ := Lib.unbroken_append.mp hA
    rw [if_pos hq, Lib.firstListed_none hE] at hlink
    rw [Lib.lastListed_split _ hq hE, if_pos hqc.mem.ne_null,
      if_neg Bool.false_ne_true, Option.bind_some, State.setNextFree,
      State.store, Words.store_of_mapped hm, Option.map_some, Words.put_word]
    rw [hqc.mem.link, hlink]

-- ============================================================ the two halves

theorem myCoalesce_halves (h : Chain s.mem (A ++ t :: B))
    (hrun : myCoalesce s t.addr = some (q, s')) :
    ∃ s₁ next curSize size, absorbNext s t.addr = some s₁
      ∧ absorbIntoPrev (growLast s₁ next curSize) t.addr size
        = some (q, s') := by
  unfold myCoalesce at hrun
  rw [if_neg h.mem.ne_null] at hrun
  simp only [Option.bind_eq_bind, Option.bind_eq_some_iff] at hrun
  obtain ⟨curSize, -, s₁, h₁, next, -, prev, -, size, -, hrun⟩ := hrun
  exact ⟨s₁, next, curSize, size, h₁, hrun⟩

theorem linkTo_word (hrun : linkTo s p q = some s') (hp : y ≠ p)
    (hq : q ≠ NULL → y ≠ q + 8) : s'.mem.word y = s.mem.word y := by
  unfold linkTo at hrun
  simp only [Option.bind_eq_bind, Option.bind_eq_some_iff] at hrun
  obtain ⟨s₁, h₁, hrun⟩ := hrun
  obtain ⟨-, rfl⟩ := State.store_eq_some h₁
  split at hrun
  case isTrue hne =>
    obtain ⟨-, rfl⟩ := State.store_eq_some hrun
    dsimp only
    rw [Words.put_word_ne (hq hne), Words.put_word_ne hp]
  case isFalse =>
    obtain rfl := Option.some.inj hrun
    exact Words.put_word_ne hp

theorem behind_taken (hB : FirstTaken B) : behind B = B := by
  cases B with
  | nil => rfl
  | cons x rest => rw [behind, hB x rfl, if_neg Bool.false_ne_true]

theorem behind_free (hx : x.listed = true) : behind (x :: B) = B := if_pos hx

theorem not_firstTaken (hx : x.listed = true) : ¬FirstTaken (x :: B) := by
  intro hB
  rw [hB x rfl] at hx
  cases hx

theorem not_lastTaken (hw : w.listed = true) : ¬LastTaken (A ++ [w]) := by
  intro hA
  rw [hA w List.getLast?_concat] at hw
  cases hw

theorem exists_next (hB : ¬FirstTaken B) :
    ∃ x rest, B = x :: rest ∧ x.listed = true := by
  cases B with
  | nil => exact absurd nofun hB
  | cons x rest =>
      refine ⟨x, rest, rfl, ?_⟩
      by_contra hx
      refine hB fun b hb => ?_
      obtain rfl := Option.some.inj hb
      exact Bool.not_eq_true _ ▸ hx

theorem exists_prev (hA : ¬LastTaken A) :
    ∃ D w, A = D ++ [w] ∧ w.listed = true := by
  rcases List.eq_nil_or_concat A with rfl | ⟨D, w, rfl⟩
  · exact absurd nofun hA
  · rw [List.concat_eq_append] at hA ⊢
    refine ⟨D, w, rfl, ?_⟩
    by_contra hw
    refine hA fun a ha => ?_
    rw [List.getLast?_concat] at ha
    obtain rfl := Option.some.inj ha
    exact Bool.not_eq_true _ ▸ hw

/-- The first half writes to the block and to the one behind the next. -/
theorem absorbNext_word (h : Chain s.mem (A ++ t :: B))
    (hrun : absorbNext s t.addr = some s₁) (hy : y ≠ t.addr)
    (hy' : y ≠ t.addr + 16)
    (hfirst : ∀ b ∈ (behind B).head?, y ≠ b.addr + 8) :
    s₁.mem.word y = s.mem.word y := by
  by_cases hB : FirstTaken B
  · rw [absorbNext_taken h hB] at hrun
    rw [← Option.some.inj hrun]
  · obtain ⟨x, rest, rfl, hx⟩ := exists_next hB
    have hhx : Holds s.mem x := h.holds x (by simp)
    have hbehind := h.behind x List.mem_cons_self
    rw [behind_free hx] at hfirst
    unfold absorbNext at hrun
    simp only [Option.bind_eq_bind] at hrun
    rw [State.next_eq h, Option.bind_some, firstAddr_cons,
      if_neg hhx.ne_null, State.status_eq hhx, Option.bind_some, statusOf,
      if_pos hx, if_neg (not_not.mpr rfl)] at hrun
    simp only [Option.bind_eq_some_iff] at hrun
    obtain ⟨_, -, s₂, h₂, next, hnext, s₃, h₃, hrun⟩ := hrun
    obtain ⟨-, rfl⟩ := State.store_eq_some h₂
    obtain ⟨-, rfl⟩ := Words.load_eq_some hnext
    rw [← Option.some.inj hrun, forget_mem, linkTo_word h₃ hy ?_]
    · exact Words.put_word_ne hy'
    · dsimp only
      rw [Words.put_word_ne (by omega), h.shift.linked_at.1]
      intro hne
      cases rest with
      | nil => exact absurd rfl hne
      | cons b rest => exact hfirst b rfl

/-- The second half writes to the previous block and to the next one. -/
theorem absorbIntoPrev_word (h : Chain s.mem ((A ++ [w]) ++ t :: B))
    (hw : w.listed = true)
    (hrun : absorbIntoPrev s t.addr size = some (q, s')) (hy : y ≠ w.addr)
    (hy' : y ≠ w.addr + 16) (hfirst : ∀ b ∈ B.head?, y ≠ b.addr + 8) :
    s'.mem.word y = s.mem.word y := by
  have hhw : Holds s.mem w := h.holds w (by simp)
  have hbefore := h.before w (by simp)
  unfold absorbIntoPrev at hrun
  simp only [Option.bind_eq_bind] at hrun
  rw [State.prev_eq h, Option.bind_some, lastAddr_concat,
    if_neg hhw.ne_null, State.status_eq hhw, Option.bind_some, statusOf,
    if_pos hw, if_neg (not_not.mpr rfl)] at hrun
  simp only [Option.bind_eq_some_iff] at hrun
  obtain ⟨_, -, s₂, h₂, next, hnext, s₃, h₃, hrun⟩ := hrun
  obtain ⟨-, rfl⟩ := State.store_eq_some h₂
  obtain ⟨-, rfl⟩ := Words.load_eq_some hnext
  obtain ⟨-, rfl⟩ := Prod.mk.inj (Option.some.inj hrun)
  rw [growLast_mem, forget_mem, linkTo_word h₃ hy ?_]
  · exact Words.put_word_ne hy'
  · dsimp only
    rw [Words.put_word_ne (by omega), h.linked_at.1]
    intro hne
    cases B with
    | nil => exact absurd rfl hne
    | cons b rest => exact hfirst b rfl

-- ======================================================= what is left behind

/-- After the first half: the chain, and the words of the headers that go. -/
theorem absorbNext_leaves (h : Chain s.mem (A ++ t :: B))
    (hrun : absorbNext s t.addr = some s₁) :
    ∃ t₁, t₁.addr = t.addr ∧ Chain s₁.mem (A ++ t₁ :: behind B)
      ∧ (FirstTaken B ∧ t₁.link = t.link
        ∨ ∃ x, B = x :: behind B ∧ x.listed = true ∧ t₁.link = x.link
          ∧ s₁.mem.word x.addr = firstAddr (behind B)) := by
  obtain ⟨t₁, B₁, s₂, hrun₂, -, hc₁, -, hnext⟩ := absorbNext_eq h
  obtain rfl := Option.some.inj (hrun.symm.trans hrun₂)
  rcases hnext with ⟨rfl, rfl, hB⟩ | ⟨x, rfl, hx, rfl⟩
  · refine ⟨t₁, rfl, ?_, .inl ⟨hB, rfl⟩⟩
    rw [behind_taken hB]
    exact hc₁
  · have hbehind := h.behind x List.mem_cons_self
    refine ⟨{ t with link := x.link }, rfl, ?_, .inr ⟨x, ?_, hx, rfl, ?_⟩⟩
    · rw [behind_free hx]
      exact hc₁
    · rw [behind_free hx]
    · rw [behind_free hx, absorbNext_word h hrun (by omega) (by omega) ?_]
      · exact h.shift.linked_at.1
      · rw [behind_free hx]
        intro b hb
        have := h.shift.behind b (List.mem_of_mem_head? hb)
        omega

/-- The headers that go still lead to what is behind the merged block. -/
theorem myCoalesce_gone (h : Chain s.mem ((A ++ [w]) ++ t :: B))
    (hw : w.listed = true) (hrun : myCoalesce s t.addr = some (q, s'))
    (ha : Gone (A ++ [w]) t B a) : s'.mem.word a = firstAddr (behind B) := by
  obtain ⟨s₁, next, curSize, size, h₁, h₂⟩ := myCoalesce_halves h hrun
  obtain ⟨t₁, haddr, hc₁, hx⟩ := absorbNext_leaves h h₁
  have hbefore := h.before w (by simp)
  rw [← haddr] at h₂
  have hsecond : ∀ {y}, t.addr ≤ y →
      (∀ b ∈ (behind B).head?, y ≠ b.addr + 8) →
      s'.mem.word y = s₁.mem.word y := by
    intro y hy hfirst
    have hc₂ : Chain (growLast s₁ next curSize).mem
        ((A ++ [w]) ++ t₁ :: behind B) := by
      rw [growLast_mem]
      exact hc₁
    rw [absorbIntoPrev_word hc₂ hw h₂ (by omega) (by omega) hfirst,
      growLast_mem]
  rcases ha with ⟨x, hhead, hfree, rfl⟩ | ⟨rfl, -⟩
  · rcases hx with ⟨hB, -⟩ | ⟨x', hB, -, -, hword⟩
    · rw [hB x hhead] at hfree
      cases hfree
    · rw [hB] at hhead
      obtain rfl := Option.some.inj hhead
      have hbehind := h.behind x' (by rw [hB]; simp)
      rw [hsecond (by omega) ?_, hword]
      intro b hb
      rw [hB] at h
      have := h.shift.behind b (List.mem_of_mem_head? hb)
      omega
  · rw [hsecond (Int.le_refl _) ?_, ← haddr]
    · exact hc₁.linked_at.1
    · intro b hb
      have := hc₁.behind b (List.mem_of_mem_head? hb)
      omega

/-- If the merged block is the last one, three words have changed. -/
theorem myCoalesce_last (h : Chain s.mem ((A ++ [w]) ++ t :: B))
    (hL : Unbroken NULL NULL ((A ++ [w]) ++ t :: B)) (ht : t.listed = false)
    (hw : w.listed = true) (hrun : myCoalesce s t.addr = some (q, s'))
    (hB : behind B = []) (hyt : y ≠ t.addr) (hyw : y ≠ w.addr)
    (hyw' : y ≠ w.addr + 16) : s'.mem.word y = s.mem.word y := by
  obtain ⟨s₁, next, curSize, size, h₁, h₂⟩ := myCoalesce_halves h hrun
  obtain ⟨t₁, haddr, hc₁, hx⟩ := absorbNext_leaves h h₁
  rw [hB] at hc₁
  rw [← haddr] at h₂
  have hsecond : s'.mem.word y = s₁.mem.word y := by
    have hc₂ : Chain (growLast s₁ next curSize).mem ((A ++ [w]) ++ [t₁]) := by
      rw [growLast_mem]
      exact hc₁
    rw [absorbIntoPrev_word hc₂ hw h₂ hyw hyw' nofun, growLast_mem]
  rw [hsecond]
  by_cases hlink : y = t.addr + 16
  · -- there is no FREE block behind for the freed one to lead to
    obtain ⟨-, hnull, hbehind⟩ := Lib.unbroken_append.mp hL
    rw [ht, if_neg Bool.false_ne_true] at hnull
    rw [hlink, h.mem.link, hnull, ← haddr, hc₁.mem.link]
    rcases hx with ⟨-, heq⟩ | ⟨x, hBx, hfree, heq, -⟩
    · exact heq.trans hnull
    · rw [hBx, hB] at hbehind
      rw [heq, hbehind.1, if_pos hfree]
      rfl
  · refine absorbNext_word h h₁ hyt hlink ?_
    rw [hB]
    exact nofun

-- ====================================================== the cached pointers

theorem forget_largest (s : State) (p : Int) :
    (forget s p).largest = if p = s.largest then NULL else s.largest := by
  unfold forget
  by_cases hp : p = s.largest
  · rw [if_pos hp]
    by_cases hnull : s.largest = NULL
    · rw [if_neg fun h => h.1 hnull]
      split
      · exact hnull
      · exact hnull
    · rw [if_pos ⟨hnull, hp⟩]
  · rw [if_neg hp, if_neg fun h => hp h.2]
    split
    · rfl
    · rfl

theorem forget_second (ha : a ≠ NULL) (hne : a ≠ p) :
    (forget s p).secondLargest = a ↔ s.secondLargest = a := by
  unfold forget
  split
  case isTrue => exact Iff.rfl
  case isFalse =>
    split
    case isTrue hboth =>
      exact ⟨fun heq => absurd heq.symm ha,
        fun heq => absurd (heq.symm.trans hboth.2.symm) hne⟩
    case isFalse => exact Iff.rfl

theorem growLast_cached (s : State) (next size : Int) :
    (growLast s next size).largest = s.largest
      ∧ (growLast s next size).secondLargest = s.secondLargest := by
  unfold growLast
  split
  · exact ⟨rfl, rfl⟩
  · exact ⟨rfl, rfl⟩

theorem forget_cached (s : State) (m : Words) (p : Int) :
    (forget { s with mem := m } p).largest = (forget s p).largest
      ∧ (forget { s with mem := m } p).secondLargest
        = (forget s p).secondLargest := by
  unfold forget
  dsimp only
  by_cases hl : s.largest ≠ NULL ∧ p = s.largest
  · rw [if_pos hl, if_pos hl]
    exact ⟨rfl, rfl⟩
  · rw [if_neg hl, if_neg hl]
    by_cases hm : s.secondLargest ≠ NULL ∧ p = s.secondLargest
    · rw [if_pos hm, if_pos hm]
      exact ⟨rfl, rfl⟩
    · rw [if_neg hm, if_neg hm]
      exact ⟨rfl, rfl⟩

theorem absorbNext_cached (h : Chain s.mem (A ++ t :: B))
    (hrun : absorbNext s t.addr = some s₁) :
    FirstTaken B ∧ s₁ = s
      ∨ ¬FirstTaken B
        ∧ s₁.largest = (forget s (firstAddr (behind B))).largest
        ∧ s₁.secondLargest
          = (forget s (firstAddr (behind B))).secondLargest := by
  by_cases hB : FirstTaken B
  · rw [absorbNext_taken h hB] at hrun
    exact .inl ⟨hB, (Option.some.inj hrun).symm⟩
  · obtain ⟨x, rest, rfl, hx⟩ := exists_next hB
    obtain ⟨m', hrun', -⟩ := absorbNext_free h hx
    obtain rfl := Option.some.inj (hrun'.symm.trans hrun)
    rw [behind_free hx]
    exact .inr ⟨hB, forget_cached s m' _⟩

theorem absorbIntoPrev_cached (h : Chain s.mem ((A ++ [w]) ++ t :: B))
    (hw : w.listed = true)
    (hrun : absorbIntoPrev s t.addr size = some (q, s')) :
    s'.largest = (forget s w.addr).largest
      ∧ s'.secondLargest = (forget s w.addr).secondLargest := by
  rw [List.append_assoc, List.singleton_append] at h
  obtain ⟨m', hrun', -⟩ := absorbIntoPrev_free h hw size
  obtain ⟨-, rfl⟩ := Prod.mk.inj (Option.some.inj (hrun'.symm.trans hrun))
  rw [(growLast_cached _ _ _).1, (growLast_cached _ _ _).2]
  exact forget_cached s m' _

theorem dropped_iff : Dropped (A ++ [w]) B a
    ↔ a = w.addr ∨ ¬FirstTaken B ∧ a = firstAddr (behind B) := by
  unfold Dropped
  rw [List.getLast?_concat]
  simp

/-- What `my_coalesce` drops, and what it leaves. -/
theorem myCoalesce_cached (h : Chain s.mem ((A ++ [w]) ++ t :: B))
    (hw : w.listed = true) (hrun : myCoalesce s t.addr = some (q, s')) :
    (Dropped (A ++ [w]) B s.largest → s'.largest = NULL)
      ∧ (¬Dropped (A ++ [w]) B s.largest → s'.largest = s.largest)
      ∧ ∀ a, a ≠ NULL → ¬Dropped (A ++ [w]) B a →
        (s'.secondLargest = a ↔ s.secondLargest = a) := by
  obtain ⟨s₁, next, curSize, size, h₁, h₂⟩ := myCoalesce_halves h hrun
  obtain ⟨t₁, haddr, hc₁, -⟩ := absorbNext_leaves h h₁
  have hc₂ : Chain (growLast s₁ next curSize).mem
      ((A ++ [w]) ++ t₁ :: behind B) := by
    rw [growLast_mem]
    exact hc₁
  rw [← haddr] at h₂
  obtain ⟨hl, hm⟩ := absorbIntoPrev_cached hc₂ hw h₂
  obtain ⟨hl₁, hm₁⟩ := growLast_cached s₁ next curSize
  rw [forget_largest, hl₁] at hl
  have hsecond : ∀ a, a ≠ NULL → a ≠ w.addr →
      (s'.secondLargest = a ↔ s₁.secondLargest = a) := by
    intro a ha hne
    rw [hm, forget_second ha hne, hm₁]
  simp only [dropped_iff, hl]
  rcases absorbNext_cached h h₁ with ⟨hB, rfl⟩ | ⟨hB, hl', hm'⟩
  · refine ⟨fun hd => if_pos ?_, fun hd => if_neg ?_, fun a ha hd => ?_⟩
    · exact (hd.resolve_right fun hd => hd.1 hB).symm
    · exact fun heq => hd (.inl heq.symm)
    · exact hsecond a ha fun heq => hd (.inl heq)
  · rw [hl', forget_largest]
    refine ⟨fun hd => ?_, fun hd => ?_, fun a ha hd => ?_⟩
    · by_cases hy : firstAddr (behind B) = s.largest
      · rw [if_pos hy]
        exact ite_self _
      · rw [if_neg hy]
        exact if_pos (hd.resolve_right fun hd => hy hd.2.symm).symm
    · have hy : ¬firstAddr (behind B) = s.largest := fun heq =>
        hd (.inr ⟨hB, heq.symm⟩)
      rw [if_neg hy]
      exact if_neg fun heq => hd (.inl heq.symm)
    · rw [hsecond a ha fun heq => hd (.inl heq), hm',
        forget_second ha fun heq => hd (.inr ⟨hB, heq⟩)]

/-- The ranking at the end of `Mem_Free`. -/
theorem recache_cases (hrun : recache s p = some s') :
    ∃ l m, s' = { s with largest := l, secondLargest := m }
      ∧ ((s.largest = NULL ∨ s.secondLargest = NULL)
          ∧ l = s.largest ∧ m = s.secondLargest
        ∨ s.largest ≠ NULL ∧ s.secondLargest ≠ NULL
          ∧ ∃ size k, getBlockSize s p = some size
            ∧ getBlockSize s s.largest = some k
            ∧ (k < size ∧ l = p ∧ m = s.largest
              ∨ size ≤ k ∧ l = s.largest
                ∧ ∃ k₂, getBlockSize s s.secondLargest = some k₂
                  ∧ m = if k₂ < size then p else s.secondLargest)) := by
  unfold recache at hrun
  split at hrun
  case isTrue hboth =>
    simp only [Option.bind_eq_bind, Option.bind_eq_some_iff] at hrun
    obtain ⟨size, hsize, k, hk, hrun⟩ := hrun
    split at hrun
    case isTrue hgt =>
      exact ⟨_, _, (Option.some.inj hrun).symm, .inr ⟨hboth.1, hboth.2, size, k,
        hsize, hk, .inl ⟨hgt, rfl, rfl⟩⟩⟩
    case isFalse hle =>
      simp only [Option.bind_eq_some_iff] at hrun
      obtain ⟨k₂, hk₂, hrun⟩ := hrun
      refine ⟨s.largest, if k₂ < size then p else s.secondLargest, ?_,
        .inr ⟨hboth.1, hboth.2, size, k, hsize, hk,
          .inr ⟨Int.not_lt.mp hle, rfl, k₂, hk₂, rfl⟩⟩⟩
      rw [← Option.some.inj hrun]
      by_cases hlt : k₂ < size
      · rw [if_pos hlt, if_pos hlt]
      · rw [if_neg hlt, if_neg hlt]
  case isFalse hnot =>
    refine ⟨s.largest, s.secondLargest, (Option.some.inj hrun).symm,
      .inl ⟨?_, rfl, rfl⟩⟩
    by_cases hl : s.largest = NULL
    · exact .inl hl
    · exact .inr (not_not.mp fun hm => hnot ⟨hl, hm⟩)

theorem recache_ends (hl : Readable s.mem s.largest)
    (hm : Readable s.mem s.secondLargest) (hp : Readable s.mem p) :
    ∃ s', recache s p = some s' := by
  obtain ⟨size, hsize⟩ := size_of_readable hp
  obtain ⟨k, hk⟩ := size_of_readable hl
  obtain ⟨k₂, hk₂⟩ := size_of_readable hm
  unfold recache
  split
  · simp only [Option.bind_eq_bind]
    rw [hsize, Option.bind_some, hk, Option.bind_some, hk₂]
    split
    · exact ⟨_, rfl⟩
    · exact ⟨_, rfl⟩
  · exact ⟨_, rfl⟩

/-- A header is not cached once a block is ranked if and only if it was not
cached, or it was only second and has been moved out. -/
theorem recache_clear (hrun : recache s p = some s') (ha : a ≠ NULL)
    (hp : a ≠ p) {ka : Int} (hsize : getBlockSize s p = some size)
    (hka : getBlockSize s a = some ka) :
    s'.largest ≠ a ∧ s'.secondLargest ≠ a
      ↔ s.largest ≠ a ∧ (s.secondLargest = a → s.largest ≠ NULL
        ∧ (ka < size ∨ ∃ k, getBlockSize s s.largest = some k ∧ k < size)) := by
  obtain ⟨l, m, rfl, hlm⟩ := recache_cases hrun
  dsimp only
  rcases hlm with ⟨hnull, rfl, rfl⟩ | ⟨hl, hm, size', k, hsize', hk, hlm⟩
  · constructor
    · exact fun h => ⟨h.1, fun heq => absurd heq h.2⟩
    · refine fun h => ⟨h.1, fun heq => ?_⟩
      rcases hnull with hnull | hnull
      · exact (h.2 heq).1 hnull
      · exact ha (heq.symm.trans hnull)
  · obtain rfl := Option.some.inj (hsize.symm.trans hsize')
    rcases hlm with ⟨hlt, rfl, rfl⟩ | ⟨hle, rfl, k₂, hk₂, rfl⟩
    · exact ⟨fun h => ⟨h.2, fun _ => ⟨hl, .inr ⟨k, hk, hlt⟩⟩⟩,
        fun h => ⟨hp.symm, h.1⟩⟩
    · refine and_congr_right fun _ => ?_
      by_cases heq : s.secondLargest = a
      · rw [heq] at hk₂
        obtain rfl := Option.some.inj (hka.symm.trans hk₂)
        constructor
        · intro hne _
          refine ⟨hl, .inl ?_⟩
          by_contra hnot
          rw [if_neg hnot] at hne
          exact hne heq
        · intro h
          have hlt : ka < size := by
            rcases (h heq).2 with hlt | ⟨k', hk', hlt⟩
            · exact hlt
            · obtain rfl := Option.some.inj (hk.symm.trans hk')
              omega
          rw [if_pos hlt]
          exact hp.symm
      · constructor
        · exact fun _ h => absurd h heq
        · intro _
          split
          · exact hp.symm
          · exact heq

-- ========================================================= a freed block

/-- The states `s₁` and `s₂` around the call of `my_coalesce` that `Mem_Free`
makes on `t`. -/
structure Around (s s₁ s₂ : State) (A : List Block) (t : Block)
    (B A' : List Block) (t' : Block) (B' : List Block) : Prop where
  merges : Merges A t B A' t' B'
  credits : Credited s s₁
  before : s₁.lastBlockSize = credited s B
  run : myCoalesce s₁ t.addr = some (t'.addr, s₂)
  kept : Kept s₁ s₂
  chain : Chain s₂.mem (A' ++ t' :: B')
  after : s₂.lastBlockSize = coalescedSize (credited s B) A t B B'

theorem Merges.behind_eq (h : Merges A t B A' t' B') : B' = behind B := by
  cases h with
  | neither _ _ _ _ hB => exact (behind_taken hB).symm
  | next _ _ x _ _ hx => exact (behind_free hx).symm
  | prev _ _ _ _ _ hB => exact (behind_taken hB).symm
  | both _ _ _ x _ _ hx => exact (behind_free hx).symm

theorem CachedReadable.kept (hs : CachedReadable s) (h : Kept s s') :
    CachedReadable s' := by
  have hread : ∀ {p}, Readable s.mem p → Readable s'.mem p :=
    (Readable.congr h.base h.size).mpr
  constructor
  · rcases h.largest with heq | heq
    · rw [heq]
      exact hread hs.1
    · exact .inl heq
  · rcases h.secondLargest with heq | heq
    · rw [heq]
      exact hread hs.2
    · exact .inl heq

theorem Around.cached (h : Around s s₁ s₂ A t B A' t' B')
    (hs : CachedReadable s) : CachedReadable s₂ := by
  refine CachedReadable.kept ?_ h.kept
  obtain ⟨-, -, -, -, hmem, hl, hm⟩ := h.credits
  rw [CachedReadable, hmem, hl, hm]
  exact hs

/-- `Mem_Free` on a block, up to where it is put on the list. -/
theorem freeBlock_around (fuel : Nat) (h : Chain s.mem (A ++ t :: B))
    (ht : t.listed = false)
    (hsize : blockSize s.lastBlockSize t B ≠ RETURN_WITH_ERROR) :
    ∃ s₁ s₂ A' t' B', Around s s₁ s₂ A t B A' t' B'
      ∧ freeBlock fuel s t.addr 1
        = (s₂.setStatus t'.addr FREE).bind fun s =>
          (enlist fuel s t'.addr (decide (blockSize s₂.lastBlockSize t' B'
            - blockSize s₁.lastBlockSize t B = 0 ∨ t.addr = t'.addr))).bind
          fun s => (recache s t'.addr).bind fun s => some (RETURN_SUCCESS, s)
    := by
  obtain ⟨s₁, hgive, hs₁, hlast₁, -⟩ := giveBack_eq h ht
    (blockSize s.lastBlockSize t B)
  have hc₁ : Chain s₁.mem (A ++ t :: B) := by
    rw [hs₁.mem]
    exact h
  obtain ⟨A', t', B', s₂, hm, hrun, hkept, hc₂, hlast₂⟩ := myCoalesce_eq hc₁
  refine ⟨s₁, s₂, A', t', B', ⟨hm, hs₁, hlast₁, hrun, hkept, hc₂, ?_⟩, ?_⟩
  · rw [hlast₂, hlast₁]
    rfl
  · rw [freeBlock, getBlockSize_eq h]
    simp only [Option.bind_eq_bind, Option.bind_some]
    rw [if_neg hsize, hgive, Option.bind_some, coalesceFreed,
      if_pos (by decide), getBlockSize_eq hc₁]
    simp only [Option.bind_eq_bind, Option.bind_some, hrun,
      getBlockSize_eq hc₂]
    rfl

/-- What `Mem_Free` leaves, once the block has been merged. -/
structure Freed (s s' : State) (A' : List Block) (t' : Block) (v : Int)
    (B' : List Block) : Prop where
  globalHead : s'.globalHead = s.globalHead
  head : s'.head = s.head
  chain : Chain s'.mem (relink t'.addr A' ++ ⟨t'.addr, v, true⟩ :: B')
  headFree : s'.headFree
    = if A'.any Lib.Cell.listed then s.headFree else t'.addr

/-- With the flag on, the link is read off the list. -/
theorem Around.relinked (h : Around s s₁ s₂ A t B A' t' B')
    (hs : CachedReadable s) (hfuel : A'.length < fuel) :
    ∃ s', ((s₂.setStatus t'.addr FREE).bind fun s =>
        (enlist fuel s t'.addr true).bind fun s =>
          (recache s t'.addr).bind fun s => some (RETURN_SUCCESS, s))
        = some (RETURN_SUCCESS, s')
      ∧ Freed s s' A' t' (lastLink s.headFree A') B' := by
  obtain ⟨m₃, hstatus, hbase₃, hsize₃, hc₃⟩ := setStatus_eq h.chain true
  rw [if_pos rfl] at hstatus
  have hfree : s₂.headFree = s.headFree :=
    h.kept.headFree.trans h.credits.headFree
  rcases enlist_eq fuel (s := { s₂ with mem := m₃ }) hc₃ true with
    ⟨-, hle⟩ | ⟨m₄, hlist, hed⟩
  · exact absurd hfuel (Nat.not_lt.mpr hle)
  dsimp only at hlist hed
  rw [if_pos rfl, hfree] at hed
  have hmapped : ∀ {p}, Readable s₂.mem p → Readable m₄ p :=
    (Readable.congr (hed.base.trans hbase₃) (hed.size.trans hsize₃)).mpr
  obtain ⟨hl, hm⟩ := h.cached hs
  have hp := h.chain.mem.mapped (k := 0) (by decide) (by decide) (by decide)
  rw [Int.add_zero] at hp
  obtain ⟨s', hre⟩ := recache_ends (s := { s₂ with
      mem := m₄
      headFree := if A'.any Lib.Cell.listed then s₂.headFree else t'.addr })
    (p := t'.addr) (hmapped hl) (hmapped hm) (hmapped (.inr hp))
  rw [hstatus, Option.bind_some, hlist, Option.bind_some, hre]
  obtain ⟨l, m, rfl, -⟩ := recache_eq hre
  exact ⟨_, rfl, h.kept.globalHead.trans h.credits.globalHead,
    h.kept.head.trans h.credits.head, hed.chain, by rw [hfree]⟩

/-- With the flag off, a block that has been on the list stays where it
is. -/
theorem Around.stays (h : Around s s₁ s₂ A t B A' t' B')
    (hs : CachedReadable s) (hfuel : A'.length < fuel)
    (ht' : t'.listed = true) (hA' : Unbroken NULL t'.addr A')
    (hfree : s.headFree = firstListed t'.addr A') :
    ∃ s', ((s₂.setStatus t'.addr FREE).bind fun s =>
        (enlist fuel s t'.addr false).bind fun s =>
          (recache s t'.addr).bind fun s => some (RETURN_SUCCESS, s))
        = some (RETURN_SUCCESS, s')
      ∧ Freed s s' A' t' t'.link B' ∧ recache s₂ t'.addr = some s' := by
  have hfree₂ : s₂.headFree = s.headFree :=
    h.kept.headFree.trans h.credits.headFree
  rcases enlist_same fuel h.chain hA' (hfree₂.trans hfree) with hlist | ⟨-, hle⟩
  case inr => exact absurd hfuel (Nat.not_lt.mpr hle)
  obtain ⟨hl, hm⟩ := h.cached hs
  have hp := h.chain.mem.mapped (k := 0) (by decide) (by decide) (by decide)
  rw [Int.add_zero] at hp
  obtain ⟨s', hre⟩ := recache_ends hl hm (.inr hp)
  rw [setStatus_same h.chain ht', Option.bind_some, hlist, Option.bind_some,
    hre]
  obtain ⟨l, m, rfl, -⟩ := recache_eq hre
  refine ⟨_, rfl, ⟨h.kept.globalHead.trans h.credits.globalHead,
    h.kept.head.trans h.credits.head, ?_, ?_⟩, rfl⟩
  · have hself : (⟨t'.addr, t'.link, true⟩ : Block) = t' := by rw [← ht']
    rw [hA'.relink_self, hself]
    exact h.chain
  · dsimp only
    rw [hfree₂]
    cases hany : A'.any Lib.Cell.listed with
    | true => rfl
    | false =>
        rw [hfree, Lib.firstListed_none (Lib.noneListed_iff.mpr hany)]
        rfl

-- ============================================================ the free list

/-- The list in front of the merged block. -/
theorem Merges.first_front (h : Merges A t B A' t' B')
    (hany : A'.any Lib.Cell.listed = true) (after : Int) :
    firstListed NULL (A ++ t :: B) = firstListed after A' := by
  rcases h.front with ⟨rfl, -⟩ | ⟨w, rfl, -⟩
  · rw [Lib.firstListed_append]
    exact Lib.firstListed_of_any hany
  · rw [List.append_assoc, Lib.firstListed_append]
    exact Lib.firstListed_of_any hany

/-- The chain starts where it started. -/
theorem Freed.head_eq {v : Int} (hf : Freed s s' A' t' v B')
    (h : WellFormed s (A ++ t :: B)) (hm : Merges A t B A' t' B') :
    s'.head = firstAddr (relink t'.addr A' ++ ⟨t'.addr, v, true⟩ :: B') := by
  rw [hf.head, h.head, ← hm.firstAddr_eq]
  exact firstAddr_eq_of_addrs (by simp [addrs_relink])

/-- The heap is well formed again if the merged block leads to the next FREE
one. -/
theorem Freed.wellFormed_iff {v : Int} (hf : Freed s s' A' t' v B')
    (h : WellFormed s (A ++ t :: B)) (hm : Merges A t B A' t' B') :
    WellFormed s' (relink t'.addr A' ++ ⟨t'.addr, v, true⟩ :: B')
      ↔ v = firstListed NULL B' := by
  obtain ⟨⟨after, hfront⟩, hbehind⟩ := hm.unbroken_around h.unbroken
  constructor
  · intro hwf
    obtain ⟨-, hlink, -⟩ := Lib.unbroken_append.mp hwf.unbroken
    exact hlink
  · intro hlink
    constructor
    case ready =>
      unfold State.ready
      rw [hf.globalHead]
      exact h.ready
    case chain => exact hf.chain
    case head => exact hf.head_eq h hm
    case unbroken =>
      refine Lib.unbroken_append.mpr ⟨?_, hlink, hbehind⟩
      rw [firstListed, if_pos rfl]
      exact hfront.relink
    case headFree =>
      rw [hf.headFree, Lib.firstListed_append, Lib.firstListed_relink,
        firstListed, if_pos rfl]
      cases hany : A'.any Lib.Cell.listed with
      | true =>
          rw [if_pos rfl, h.headFree]
          exact hm.first_front hany _
      | false =>
          rw [if_neg Bool.false_ne_true, Lib.firstListed_none
            (Lib.noneListed_iff.mpr hany)]

/-- A header that is gone is not on the chain. -/
theorem Merges.gone {m : Words} (hm : Merges A t B A' t' B')
    (hc : Chain m (A ++ t :: B)) (ha : Gone A t B a) :
    a ∉ (A' ++ t' :: B').map Lib.Cell.addr := by
  have hnext : ∀ {x}, x ∈ B.head? → x.listed = true → ¬FirstTaken B := by
    intro x hx hfree hB
    rw [hB x hx] at hfree
    cases hfree
  have hprev : ∀ {w}, w ∈ A.getLast? → w.listed = true → ¬LastTaken A := by
    intro w hw hfree hA
    rw [hA w hw] at hfree
    cases hfree
  intro hmem
  rw [List.map_append, List.map_cons, List.mem_append, List.mem_cons] at hmem
  -- a header in front of `t`, and one behind the merged block, is elsewhere
  have hfront : ∀ {D : List Block}, D.Sublist A → t.addr ≤ a →
      a ∉ D.map Lib.Cell.addr := by
    intro D hD hle hin
    obtain ⟨d, hd, rfl⟩ := List.mem_map.mp hin
    have := hc.before d (hD.subset hd)
    omega
  cases hm with
  | neither _ _ _ hA hB =>
      rcases ha with ⟨x, hx, hfree, -⟩ | ⟨-, w, hw, hfree⟩
      · exact hnext hx hfree hB
      · exact hprev hw hfree hA
  | next _ _ x _ hA hx =>
      rcases ha with ⟨x', hx', -, rfl⟩ | ⟨-, w, hw, hfree⟩
      · obtain rfl := Option.some.inj hx'
        have hlt := hc.behind x List.mem_cons_self
        rcases hmem with hmem | hmem | hmem
        · exact hfront (.refl _) (by omega) hmem
        · dsimp only at hmem
          omega
        · obtain ⟨b, hb, heq⟩ := List.mem_map.mp hmem
          have := hc.shift.behind b hb
          omega
      · exact hprev hw hfree hA
  | prev _ w _ _ hw hB =>
      rcases ha with ⟨x, hx, hfree, -⟩ | ⟨rfl, -⟩
      · exact hnext hx hfree hB
      · have hlt := hc.before w (by simp)
        rcases hmem with hmem | hmem | hmem
        · exact hfront (List.sublist_append_left _ _) (Int.le_refl _) hmem
        · dsimp only at hmem
          omega
        · obtain ⟨b, hb, heq⟩ := List.mem_map.mp hmem
          have := hc.behind b hb
          omega
  | both _ w _ x _ hw hx =>
      have hlt := hc.before w (by simp)
      have hlt' := hc.behind x List.mem_cons_self
      have hle : t.addr ≤ a ∧ a ≤ x.addr := by
        rcases ha with ⟨x', hx', -, rfl⟩ | ⟨rfl, -⟩
        · obtain rfl := Option.some.inj hx'
          omega
        · omega
      rcases hmem with hmem | hmem | hmem
      · exact hfront (List.sublist_append_left _ _) hle.1 hmem
      · dsimp only at hmem
        omega
      · obtain ⟨b, hb, heq⟩ := List.mem_map.mp hmem
        have := hc.shift.behind b hb
        omega

/-- So the call has gone right if the link is, and the cached pointers
are. -/
theorem Freed.rejoined_iff {v : Int} (hf : Freed s s' A' t' v B')
    (h : WellFormed s (A ++ t :: B)) (hm : Merges A t B A' t' B') :
    Rejoined s' A t B ↔ v = firstListed NULL B'
      ∧ ∀ a, Gone A t B a → s'.largest ≠ a ∧ s'.secondLargest ≠ a := by
  constructor
  · intro hout
    obtain ⟨_, _, _, L', -, hL', -, hgone⟩ := hout
    obtain rfl := hL'.eq_of_chain hf.chain (hf.head_eq h hm)
    exact ⟨(hf.wellFormed_iff h hm).mp hL', fun a ha => (hgone a ha).2⟩
  · intro hboth
    refine ⟨A', t', B', _, hm, (hf.wellFormed_iff h hm).mpr hboth.1, ?_,
      fun a ha => ⟨?_, hboth.2 a ha⟩⟩
    · rw [shapes_append, shapes_relink, shapes_cons]
    · rw [List.map_append, addrs_relink]
      have hnot := hm.gone h.chain ha
      rw [List.map_append] at hnot
      exact hnot

/-- A call that leaves the block as it is has not gone right. -/
theorem WellFormed.not_rejoined (h : WellFormed s (A ++ t :: B))
    (ht : t.listed = false) : ¬Rejoined s A t B := by
  intro hout
  obtain ⟨A', t', B', L', hm, hL', hshapes, -⟩ := hout
  obtain rfl := h.unique hL'
  have hlen := congrArg List.length hshapes
  rw [shapes_append, shapes_cons] at hshapes hlen
  cases hm with
  | neither =>
      have heq := List.append_cancel_left hshapes
      rw [ht] at heq
      cases congrArg Prod.snd (List.cons.inj heq).1
  | next => simp [shapes] at hlen
  | prev => simp [shapes] at hlen
  | both =>
      simp [shapes] at hlen
      omega

-- ===================================== the previous block is ALLOCATED

/-- The list leads from in front of an ALLOCATED block to behind it. -/
theorem WellFormed.leads (h : WellFormed s (A ++ t :: B))
    (ht : t.listed = false) :
    lastLink s.headFree A = firstListed NULL B := by
  obtain ⟨hA, -, -⟩ := Lib.unbroken_append.mp h.unbroken
  have hfirst : firstListed NULL (t :: B) = firstListed NULL B := by
    rw [firstListed, ht, if_neg Bool.false_ne_true]
  rw [hfirst] at hA
  refine hA.lastLink ?_
  rw [h.headFree, Lib.firstListed_append, hfirst]

theorem not_gone (hA : LastTaken A) (hB : FirstTaken B) : ¬Gone A t B a := by
  intro ha
  rcases ha with ⟨x, hx, hfree, -⟩ | ⟨-, w, hw, hfree⟩
  · rw [hB x hx] at hfree
    cases hfree
  · rw [hA w hw] at hfree
    cases hfree

/-- A block that the previous one does not absorb must not absorb any
other. -/
theorem WellFormed.freed_apart (h : WellFormed s (A ++ t :: B))
    (ht : t.listed = false) (hs : CachedReadable s) (hfuel : A.length < fuel)
    (hsize : blockSize s.lastBlockSize t B ≠ RETURN_WITH_ERROR)
    (hA : LastTaken A) :
    ∃ s', freeBlock fuel s t.addr 1 = some (RETURN_SUCCESS, s')
      ∧ (Rejoined s' A t B ↔ FirstTaken B) := by
  obtain ⟨s₁, s₂, A', t', B', haround, hrun⟩ :=
    freeBlock_around fuel h.chain ht hsize
  have hm := haround.merges
  have hsame : A' = A ∧ t'.addr = t.addr := by
    rcases hm.front with ⟨heq, haddr, -⟩ | ⟨w, rfl, hw, -⟩
    · exact ⟨heq.symm, haddr⟩
    · exact absurd hA (not_lastTaken hw)
  obtain ⟨rfl, haddr⟩ := hsame
  rw [decide_eq_true (Or.inr haddr.symm)] at hrun
  obtain ⟨s', hrun', hf⟩ := haround.relinked hs hfuel
  refine ⟨s', hrun.trans hrun', ?_⟩
  rw [hf.rejoined_iff h hm, h.leads ht, hm.behind_eq]
  constructor
  · intro hboth
    by_contra hB
    obtain ⟨x, rest, rfl, hx⟩ := exists_next hB
    obtain ⟨hlink, -⟩ := hboth
    rw [firstListed, if_pos hx, behind_free hx] at hlink
    exact h.chain.shift.firstListed_ne hlink.symm
  · intro hB
    rw [behind_taken hB]
    exact ⟨rfl, fun a ha => absurd ha (not_gone hA hB)⟩

-- ========================================= the previous block is FREE

/-- The flag is on if the merged block is the last one and has the size that
the freed one had. -/
theorem Around.flag_iff (h : Around s s₁ s₂ (A ++ [w]) t B A' t' B')
    (hc : Chain s.mem ((A ++ [w]) ++ t :: B)) (haddr : t'.addr = w.addr) :
    blockSize s₂.lastBlockSize t' B' - blockSize s₁.lastBlockSize t B = 0
        ∨ t.addr = t'.addr
      ↔ behind B = []
        ∧ coalescedSize (credited s B) (A ++ [w]) t B []
          = blockSize (credited s B) t B := by
  have hbefore := hc.before w (by simp)
  have hbehind := h.merges.behind_eq
  have hafter := h.after
  rw [or_iff_left (show t.addr ≠ t'.addr by omega), h.before]
  rw [hbehind] at hafter ⊢
  cases hB : behind B with
  | nil =>
      rw [hB] at hafter
      rw [hafter, blockSize]
      simp only [true_and]
      omega
  | cons y rest =>
      refine ⟨fun heq => ?_, fun h => absurd h.1 (List.cons_ne_nil _ _)⟩
      exfalso
      -- `y` is behind `t` or behind the block between them
      by_cases hfirst : FirstTaken B
      · rw [behind_taken hfirst] at hB
        subst hB
        simp only [blockSize] at heq
        omega
      · obtain ⟨x, rest', rfl, hx⟩ := exists_next hfirst
        rw [behind_free hx] at hB
        subst hB
        have := hc.shift.behind y List.mem_cons_self
        simp only [blockSize] at heq
        omega

/-- The link of the merged block, if it stays. -/
theorem Merges.link_iff (h : Merges (A ++ [w]) t B A' t' B')
    (hw : w.listed = true) (ht : t.listed = false)
    (hL : Unbroken NULL NULL ((A ++ [w]) ++ t :: B)) {m : Words}
    (hc : Chain m ((A ++ [w]) ++ t :: B)) :
    t'.link = firstListed NULL B' ↔ (FirstTaken B → NoneListed B) := by
  obtain ⟨-, hlink, hB⟩ := Lib.unbroken_append.mp hL
  rw [ht, if_neg Bool.false_ne_true] at hlink
  generalize hAw : A ++ [w] = D at h
  cases h with
  | neither _ _ _ hA => exact absurd (hAw ▸ hA) (not_lastTaken hw)
  | next _ _ x _ hA => exact absurd (hAw ▸ hA) (not_lastTaken hw)
  | prev _ w' _ _ hw' hfirst =>
      dsimp only
      rw [hlink]
      refine ⟨fun heq _ => ?_, fun hnone => ?_⟩
      · rcases Lib.exists_first B with hnone | ⟨E, d, F, rfl, hd, hE⟩
        · exact hnone
        · rw [Lib.firstListed_split hd hE] at heq
          have hd' : Holds m d := hc.holds d (by simp)
          exact absurd heq.symm hd'.ne_null
      · exact (Lib.firstListed_none (hnone hfirst)).symm
  | both _ w' _ x _ hw' hx =>
      refine ⟨fun _ hfirst => absurd hfirst (not_firstTaken hx), fun _ => ?_⟩
      exact hB.1.trans (if_pos hx)

/-- A header that is gone is neither `NULL` nor dropped. -/
theorem Gone.ne {m : Words} (ha : Gone (A ++ [w]) t B a)
    (hc : Chain m ((A ++ [w]) ++ t :: B)) :
    a ≠ NULL ∧ m.Mapped a ∧ a ≠ w.addr ∧ ¬Dropped (A ++ [w]) B a := by
  have hbefore := hc.before w (by simp)
  have hpos := (hc.holds w (by simp)).pos
  have hmapped : ∀ {b : Block}, b ∈ (A ++ [w]) ++ t :: B → m.Mapped b.addr := by
    intro b hb
    have h₀ := (hc.holds b hb).mapped (k := 0) (by decide) (by decide)
      (by decide)
    rwa [Int.add_zero] at h₀
  rw [dropped_iff]
  rcases ha with ⟨x, hx, hfree, rfl⟩ | ⟨rfl, -⟩
  · obtain ⟨rest, rfl⟩ : ∃ rest, B = x :: rest := by
      cases B with
      | nil => cases hx
      | cons b rest => exact ⟨rest, by rw [Option.some.inj hx]⟩
    have hlt := hc.behind x List.mem_cons_self
    rw [behind_free hfree]
    refine ⟨(hc.holds x (by simp)).ne_null, hmapped (by simp), by omega, ?_⟩
    intro hd
    rcases hd with heq | ⟨-, heq⟩
    · omega
    · cases rest with
      | nil => exact (hc.holds x (by simp)).ne_null heq
      | cons y rest =>
          have := hc.shift.behind y List.mem_cons_self
          rw [firstAddr_cons] at heq
          omega
  · refine ⟨hc.mem.ne_null, hmapped (by simp), by omega, fun hd => ?_⟩
    rcases hd with heq | ⟨hB, heq⟩
    · omega
    · obtain ⟨x, rest, rfl, hx⟩ := exists_next hB
      rw [behind_free hx] at heq
      cases rest with
      | nil => exact hc.mem.ne_null heq
      | cons y rest =>
          have := hc.behind y (by simp)
          rw [firstAddr_cons] at heq
          omega

/-- The size of a header that is gone: it is smaller than the merged block,
or both are the recorded size. -/
theorem Around.gone_size (h : Around s s₁ s₂ (A ++ [w]) t B A' t' B')
    (hw : w.listed = true) (hc : Chain s.mem ((A ++ [w]) ++ t :: B))
    (haddr : t'.addr = w.addr) (ha : Gone (A ++ [w]) t B a) :
    ∃ ka, getBlockSize s₂ a = some ka
      ∧ (ka < blockSize s₂.lastBlockSize t' B' ↔ behind B ≠ []) := by
  have hc₁ : Chain s₁.mem ((A ++ [w]) ++ t :: B) := by
    rw [h.credits.mem]
    exact hc
  obtain ⟨hne, hmapped, -, -⟩ := ha.ne hc
  have hword := myCoalesce_gone hc₁ hw h.run ha
  have hmapped₂ : s₂.mem.Mapped a := by
    have hread : Readable s₂.mem a := (Readable.congr h.kept.base
      h.kept.size).mpr (by rw [h.credits.mem]; exact .inr hmapped)
    exact hread.resolve_left hne
  have hlt : w.addr < a := by
    have hbefore := hc.before w (by simp)
    rcases ha with ⟨x, hx, -, rfl⟩ | ⟨rfl, -⟩
    · have := hc.behind x (List.mem_of_mem_head? hx)
      omega
    · omega
  rw [h.merges.behind_eq]
  unfold getBlockSize State.next
  rw [if_neg hne, Words.load_of_mapped hmapped₂, hword, Option.bind_eq_bind,
    Option.bind_some]
  cases hB : behind B with
  | nil =>
      refine ⟨s₂.lastBlockSize, if_neg (not_not.mpr rfl), ?_⟩
      rw [blockSize]
      simp
  | cons y rest =>
      have hy : Holds s₂.mem y := by
        have hc₂ := h.chain
        rw [h.merges.behind_eq, hB] at hc₂
        exact hc₂.holds y (by simp)
      refine ⟨y.addr - (a + BLOCK_HEADER), if_pos hy.ne_null, ?_⟩
      rw [blockSize]
      unfold BLOCK_HEADER
      simp only [ne_eq, List.cons_ne_nil, not_false_eq_true, iff_true]
      omega

theorem getBlockSize_congr (hbase : s'.mem.base = s.mem.base)
    (hsize : s'.mem.size = s.mem.size)
    (hword : s'.mem.word p = s.mem.word p)
    (hlast : s'.lastBlockSize = s.lastBlockSize) :
    getBlockSize s' p = getBlockSize s p := by
  have hmapped : s'.mem.Mapped p ↔ s.mem.Mapped p := by
    unfold Words.Mapped
    rw [hbase, hsize]
  have hload : s'.mem.load p = s.mem.load p := by
    unfold Words.load
    simp only [hmapped, hword]
  unfold getBlockSize State.next
  rw [hload, hlast]

/-- The ranking moves a header that is gone out of `second_largest`. -/
theorem Around.displaced_iff (h : Around s s₁ s₂ (A ++ [w]) t B A' t' B')
    (hwf : WellFormed s ((A ++ [w]) ++ t :: B)) (hw : w.listed = true)
    (ht : t.listed = false) (haddr : t'.addr = w.addr)
    (hlink : t'.link = firstListed NULL B') (hnot : s.largest ≠ t.addr)
    {ka : Int}
    (hka : ka < blockSize s₂.lastBlockSize t' B' ↔ behind B ≠ []) :
    (s₂.largest ≠ NULL ∧ (ka < blockSize s₂.lastBlockSize t' B'
        ∨ ∃ k, getBlockSize s₂ s₂.largest = some k
          ∧ k < blockSize s₂.lastBlockSize t' B'))
      ↔ Displaced s (A ++ [w]) t B := by
  have hmem := h.credits.mem
  have hc₁ : Chain s₁.mem ((A ++ [w]) ++ t :: B) := by
    rw [hmem]
    exact hwf.chain
  obtain ⟨hdrop, hkeep, -⟩ := myCoalesce_cached hc₁ hw h.run
  rw [h.credits.largest] at hdrop hkeep
  unfold Displaced
  by_cases hd : Dropped (A ++ [w]) B s.largest
  · exact ⟨fun hl => absurd (hdrop hd) hl.1, fun hl => absurd hd hl.2.1⟩
  rw [hkeep hd]
  refine and_congr_right fun hnull => ?_
  rw [and_iff_right hd]
  by_cases hB : behind B = []
  · have hafter := h.after
    have hchain := h.chain
    rw [h.merges.behind_eq, hB] at hafter hlink hchain hka
    rw [h.merges.behind_eq, hB, blockSize, hafter]
    rw [or_iff_right fun hlt => (hka.mp (by rwa [blockSize, hafter])) rfl]
    simp only [true_imp_iff, List.getLast?_concat, Option.mem_some_iff,
      forall_eq']
    by_cases hlw : s.largest = w.addr + 16
    · -- there the merged block's `next_free` is read, which is `NULL`
      refine ⟨fun hk => ?_, fun hk => absurd hlw hk.1⟩
      exfalso
      obtain ⟨k, hk, hlt⟩ := hk
      have hword := hchain.mem.link
      rw [haddr, hlink, ← hlw, firstListed] at hword
      unfold getBlockSize State.next Words.load at hk
      rw [if_neg hnull] at hk
      simp only [Option.bind_eq_bind, Option.bind_eq_some_iff] at hk
      obtain ⟨next, hnext, hk⟩ := hk
      split at hnext
      case isFalse => cases hnext
      case isTrue =>
        obtain rfl := Option.some.inj hnext
        rw [hword, if_neg (not_not.mpr rfl)] at hk
        have heq := Option.some.inj hk
        omega
    · rw [and_iff_right hlw]
      have hsame : getBlockSize s₂ s.largest = getBlockSize { s with
          lastBlockSize := coalescedSize (credited s B) (A ++ [w]) t B [] }
          s.largest := by
        have hword : s₂.mem.word s.largest = s.mem.word s.largest := by
          rw [← hmem]
          refine myCoalesce_last hc₁ hwf.unbroken ht hw h.run hB hnot ?_ hlw
          exact fun heq => hd (dropped_iff.mpr (.inl heq))
        exact getBlockSize_congr (by rw [h.kept.base, hmem])
          (by rw [h.kept.size, hmem]) hword hafter
      rw [hsame]
  · exact ⟨fun _ hnil => absurd hnil hB, fun _ => .inl (hka.mpr hB)⟩

/-- The previous block, if it is FREE, is what the merged one becomes. -/
theorem Merges.into_prev (h : Merges (A ++ [w]) t B A' t' B')
    (hw : w.listed = true) :
    A' = A ∧ t'.addr = w.addr ∧ t'.listed = true := by
  generalize hAw : A ++ [w] = D at h
  cases h with
  | neither _ _ _ hA => exact absurd (hAw ▸ hA) (not_lastTaken hw)
  | next _ _ x _ hA => exact absurd (hAw ▸ hA) (not_lastTaken hw)
  | prev D' w' =>
      obtain ⟨rfl, hlast⟩ := List.append_inj' hAw rfl
      obtain rfl := List.singleton_inj.mp hlast
      exact ⟨rfl, rfl, hw⟩
  | both D' w' =>
      obtain ⟨rfl, hlast⟩ := List.append_inj' hAw rfl
      obtain rfl := List.singleton_inj.mp hlast
      exact ⟨rfl, rfl, hw⟩

/-- With the flag off, no cached pointer is left on a header that is gone if
the freed block's header was not `largest`, and one that was `second_largest`
is moved out. -/
theorem Around.clear_iff (h : Around s s₁ s₂ (A ++ [w]) t B A' t' B')
    (hwf : WellFormed s ((A ++ [w]) ++ t :: B)) (hw : w.listed = true)
    (ht : t.listed = false) (haddr : t'.addr = w.addr)
    (hlink : t'.link = firstListed NULL B')
    (hre : recache s₂ t'.addr = some s') :
    (∀ a, Gone (A ++ [w]) t B a → s'.largest ≠ a ∧ s'.secondLargest ≠ a)
      ↔ (∀ a, Gone (A ++ [w]) t B a → s.largest ≠ a)
        ∧ ∀ a, Gone (A ++ [w]) t B a → s.secondLargest = a →
          Displaced s (A ++ [w]) t B := by
  have hc₁ : Chain s₁.mem ((A ++ [w]) ++ t :: B) := by
    rw [h.credits.mem]
    exact hwf.chain
  have hgone : Gone (A ++ [w]) t B t.addr :=
    .inr ⟨rfl, w, List.getLast?_concat, hw⟩
  obtain ⟨hdrop, hkeep, hsecond⟩ := myCoalesce_cached hc₁ hw h.run
  rw [h.credits.largest] at hdrop hkeep
  rw [h.credits.secondLargest] at hsecond
  have hlargest : ∀ {a}, Gone (A ++ [w]) t B a →
      (s₂.largest ≠ a ↔ s.largest ≠ a) := by
    intro a ha
    obtain ⟨hne, -, -, hnot⟩ := ha.ne hwf.chain
    by_cases hd : Dropped (A ++ [w]) B s.largest
    · refine iff_of_true ?_ fun heq => hnot (heq ▸ hd)
      rw [hdrop hd]
      exact hne.symm
    · rw [hkeep hd]
  -- what the ranking leaves of one header
  have hclear : ∀ {a}, Gone (A ++ [w]) t B a → s.largest ≠ t.addr →
      (s'.largest ≠ a ∧ s'.secondLargest ≠ a ↔ s.largest ≠ a
        ∧ (s.secondLargest = a → Displaced s (A ++ [w]) t B)) := by
    intro a ha hnot
    obtain ⟨hne, -, hnew, hkept⟩ := ha.ne hwf.chain
    obtain ⟨ka, hka, hsize⟩ := h.gone_size hw hwf.chain haddr ha
    rw [recache_clear hre hne (by rwa [haddr]) (getBlockSize_eq h.chain) hka,
      hlargest ha, hsecond a hne hkept,
      h.displaced_iff hwf hw ht haddr hlink hnot hsize]
  constructor
  · intro hall
    have hnot : s.largest ≠ t.addr := by
      obtain ⟨hne, -, hnew, -⟩ := hgone.ne hwf.chain
      obtain ⟨ka, hka, -⟩ := h.gone_size hw hwf.chain haddr hgone
      refine (hlargest hgone).mp ?_
      exact ((recache_clear hre hne (by rwa [haddr])
        (getBlockSize_eq h.chain) hka).mp (hall _ hgone)).1
    exact ⟨fun a ha => ((hclear ha hnot).mp (hall a ha)).1,
      fun a ha => ((hclear ha hnot).mp (hall a ha)).2⟩
  · intro hboth a ha
    exact (hclear ha (hboth.1 _ hgone)).mpr ⟨hboth.1 a ha, hboth.2 a ha⟩

/-- A block that the previous one absorbs. -/
theorem WellFormed.freed_joined (h : WellFormed s ((A ++ [w]) ++ t :: B))
    (ht : t.listed = false) (hw : w.listed = true) (hs : CachedReadable s)
    (hfuel : (A ++ [w]).length < fuel)
    (hsize : blockSize s.lastBlockSize t B ≠ RETURN_WITH_ERROR) :
    ∃ s', freeBlock fuel s t.addr 1 = some (RETURN_SUCCESS, s')
      ∧ (Rejoined s' (A ++ [w]) t B ↔ (FirstTaken B → NoneListed B)
        ∧ (behind B = [] → coalescedSize (credited s B) (A ++ [w]) t B []
          ≠ blockSize (credited s B) t B)
        ∧ (∀ a, Gone (A ++ [w]) t B a → s.largest ≠ a)
        ∧ ∀ a, Gone (A ++ [w]) t B a → s.secondLargest = a →
          Displaced s (A ++ [w]) t B) := by
  obtain ⟨s₁, s₂, A', t', B', haround, hrun⟩ :=
    freeBlock_around fuel h.chain ht hsize
  have hm := haround.merges
  obtain ⟨rfl, haddr, hfree⟩ := hm.into_prev hw
  have hfuel' : A'.length < fuel := by
    rw [List.length_append] at hfuel
    omega
  -- the list in front of `w`, which leads to it
  obtain ⟨hfront, hstart⟩ : Unbroken NULL t'.addr A'
      ∧ s.headFree = firstListed t'.addr A' := by
    have hfirst : firstListed NULL (w :: t :: B) = t'.addr := by
      rw [firstListed, if_pos hw, haddr]
    have hunbroken := h.unbroken
    have hhead := h.headFree
    rw [List.append_assoc] at hunbroken hhead
    rw [Lib.unbroken_append, List.singleton_append, hfirst] at hunbroken
    rw [Lib.firstListed_append, List.singleton_append, hfirst] at hhead
    exact ⟨hunbroken.1, hhead⟩
  have hlist : lastLink s.headFree A' = w.addr := by
    rw [← haddr]
    exact hfront.lastLink hstart
  by_cases hflag : blockSize s₂.lastBlockSize t' B'
      - blockSize s₁.lastBlockSize t B = 0 ∨ t.addr = t'.addr
  · -- the link is taken from the list, which leads to the block itself
    rw [decide_eq_true hflag] at hrun
    obtain ⟨s', hrun', hf⟩ := haround.relinked hs hfuel'
    refine ⟨s', hrun.trans hrun', ?_⟩
    obtain ⟨hend, hsame⟩ := (haround.flag_iff h.chain haddr).mp hflag
    refine iff_of_false (fun hout => ?_) fun hall => hall.2.1 hend hsame
    have hlink := ((hf.rejoined_iff h hm).mp hout).1
    rw [hlist, hm.behind_eq, hend] at hlink
    exact (h.chain.holds w (by simp)).ne_null hlink
  · rw [decide_eq_false hflag] at hrun
    obtain ⟨s', hrun', hf, hre⟩ := haround.stays hs hfuel' hfree hfront
      hstart
    refine ⟨s', hrun.trans hrun', ?_⟩
    rw [hf.rejoined_iff h hm, hm.link_iff hw ht h.unbroken h.chain]
    rw [haround.flag_iff h.chain haddr] at hflag
    have hclear := fun hend => haround.clear_iff h hw ht haddr
      ((hm.link_iff hw ht h.unbroken h.chain).mpr hend) hre
    constructor
    · intro hout
      exact ⟨hout.1, fun hnil heq => hflag ⟨hnil, heq⟩,
        (hclear hout.1).mp hout.2⟩
    · intro hall
      exact ⟨hall.1, (hclear hall.1).mpr hall.2.2⟩

-- ================================================================ the call

/-- The call up to `freeBlock`. -/
theorem WellFormed.memFree_eq (fuel : Nat)
    (h : WellFormed s (A ++ t :: B))
    (hneed : s.needGlobalCoalesce = FALSE) :
    ∃ valid, isValidAddr s (t.addr + BLOCK_HEADER) = some valid
      ∧ memFree fuel s (t.addr + BLOCK_HEADER) 1
        = if valid then freeBlock fuel s t.addr 1
          else some (RETURN_WITH_ERROR, s) := by
  have hpos := h.chain.mem.pos
  have hheader : getHeader (t.addr + BLOCK_HEADER) = t.addr := by
    unfold getHeader
    omega
  have hnull : t.addr + BLOCK_HEADER ≠ NULL := by
    unfold BLOCK_HEADER NULL
    omega
  obtain ⟨valid, hvalid⟩ : ∃ valid,
      isValidAddr s (t.addr + BLOCK_HEADER) = some valid := by
    unfold isValidAddr
    rw [if_neg (not_not.mpr h.ready), hheader, State.status_eq h.chain.mem]
    split
    · exact ⟨_, rfl⟩
    · exact ⟨_, rfl⟩
  have hpending : pendingCoalesce fuel s 1 = some s := by
    unfold pendingCoalesce
    rw [hneed]
    exact if_neg fun hboth => absurd hboth.1 (by decide)
  refine ⟨valid, hvalid, ?_⟩
  rw [memFree, if_neg hnull, hpending]
  simp only [Option.bind_eq_bind, Option.bind_some, Int.reduceEq, if_false]
  rw [hvalid, Option.bind_some, hheader]

/-- An immediate free of an ALLOCATED block of a well-formed heap leaves the
block and its FREE neighbours as one FREE block, and nothing leading to a
header that is gone, exactly if it `Joins`. -/
theorem rejoins_iff (h : WellFormed s (A ++ t :: B)) (ht : t.listed = false)
    (hneed : s.needGlobalCoalesce = FALSE) (hs : CachedReadable s)
    (hfuel : A.length < fuel) :
    (∃ r s', memFree fuel s (t.addr + BLOCK_HEADER) 1 = some (r, s')
      ∧ Rejoined s' A t B) ↔ Joins s A t B := by
  obtain ⟨valid, hvalid, hrun⟩ := h.memFree_eq fuel hneed
  cases valid with
  | false =>
      refine iff_of_false (fun hout => ?_) fun hjoins => ?_
      · obtain ⟨r, s', hrun', hout⟩ := hout
        rw [hrun, if_neg Bool.false_ne_true] at hrun'
        obtain rfl := (Prod.mk.inj (Option.some.inj hrun')).2
        exact h.not_rejoined ht hout
      · cases hvalid.symm.trans hjoins.valid
  | true =>
      rw [if_pos rfl] at hrun
      by_cases hsize : blockSize s.lastBlockSize t B = RETURN_WITH_ERROR
      · refine iff_of_false (fun hout => ?_) fun hjoins =>
          hjoins.sized hsize
        obtain ⟨r, s', hrun', hout⟩ := hout
        rw [hrun, freeBlock, getBlockSize_eq h.chain] at hrun'
        simp only [Option.bind_eq_bind, Option.bind_some] at hrun'
        rw [if_pos hsize] at hrun'
        obtain rfl := (Prod.mk.inj (Option.some.inj hrun')).2
        exact h.not_rejoined ht hout
      by_cases hA : LastTaken A
      · obtain ⟨s', hfree, hiff⟩ := h.freed_apart ht hs hfuel hsize hA
        rw [← hrun] at hfree
        constructor
        · intro hout
          obtain ⟨r, s'', hrun', hout⟩ := hout
          obtain ⟨-, rfl⟩ := Prod.mk.inj
            (Option.some.inj (hfree.symm.trans hrun'))
          have hB := hiff.mp hout
          exact ⟨hvalid, hsize, fun hnot => absurd hB hnot,
            fun hnot => absurd hA hnot, fun hnot => absurd hA hnot,
            fun a ha => absurd ha (not_gone hA hB),
            fun a ha => absurd ha (not_gone hA hB)⟩
        · intro hjoins
          refine ⟨_, s', hfree, hiff.mpr ?_⟩
          by_contra hB
          exact hjoins.absorbs hB hA
      · obtain ⟨D, w, rfl, hw⟩ := exists_prev hA
        obtain ⟨s', hfree, hiff⟩ := h.freed_joined ht hw hs hfuel hsize
        rw [← hrun] at hfree
        constructor
        · intro hout
          obtain ⟨r, s'', hrun', hout⟩ := hout
          obtain ⟨-, rfl⟩ := Prod.mk.inj
            (Option.some.inj (hfree.symm.trans hrun'))
          obtain ⟨hends, hgrows, hlargest, hsecond⟩ := hiff.mp hout
          exact ⟨hvalid, hsize, fun _ => hA, fun _ => hends, fun _ => hgrows,
            hlargest, hsecond⟩
        · intro hjoins
          exact ⟨_, s', hfree, hiff.mpr ⟨hjoins.ends hA, hjoins.grows hA,
            hjoins.largest, hjoins.second⟩⟩

/-- The theorem where the previous of three blocks is FREE. -/
theorem rejoins_iff_previous : ∃ c r s',
    Lib.run (client fun _ _ => True)
        [.alloc 9 8, .alloc 9 8, .alloc 9 48, .free 9 65616 1] (opened 64)
      = some c
      ∧ memFree 9 c.heap 65656 1 = some (r, s')
      ∧ Rejoined s' [⟨65584, NULL, true⟩] ⟨65624, NULL, false⟩
        [⟨65664, NULL, false⟩]
      ∧ Joins c.heap [⟨65584, NULL, true⟩] ⟨65624, NULL, false⟩
        [⟨65664, NULL, false⟩] := by
  let c := (Lib.run (client fun _ _ => True)
    [.alloc 9 8, .alloc 9 8, .alloc 9 48, .free 9 65616 1] (opened 64)).get
    (by decide +kernel)
  let r := (memFree 9 c.heap 65656 1).get (by decide +kernel)
  have hr : memFree 9 c.heap 65656 1 = some (r.1, r.2) :=
    (Option.some_get _).symm
  have hout : Rejoined r.2 [⟨65584, NULL, true⟩] ⟨65624, NULL, false⟩
      [⟨65664, NULL, false⟩] := by
    refine ⟨[], ⟨65584, NULL, true⟩, [⟨65664, NULL, false⟩],
      [⟨65584, NULL, true⟩, ⟨65664, NULL, false⟩],
      .prev [] ⟨65584, NULL, true⟩ _ _ rfl
        fun b hb => Option.some.inj hb ▸ rfl, by decide +kernel, rfl, ?_⟩
    intro a ha
    rcases ha with ⟨x, hx, hfree, -⟩ | ⟨rfl, -⟩
    · obtain rfl := Option.some.inj hx
      cases hfree
    · decide +kernel
  have hfuel : [(⟨65584, NULL, true⟩ : Block)].length < 9 := by decide
  have hiff := rejoins_iff (s := c.heap) (A := [⟨65584, NULL, true⟩])
    (t := ⟨65624, NULL, false⟩) (B := [⟨65664, NULL, false⟩])
    (by decide +kernel) rfl (by decide +kernel)
    ⟨.inr (by decide +kernel), .inl (by decide +kernel)⟩ hfuel
  exact ⟨c, r.1, r.2, (Option.some_get _).symm, hr, hout,
    hiff.mp ⟨_, _, hr, hout⟩⟩

/-- A block absorbs the next one and leads on to the header it absorbed. -/
theorem leads_to_gone : ¬∀ (s : State) (A : List Block) (t : Block)
    (B : List Block) (fuel : Nat), WellFormed s (A ++ t :: B) →
    t.listed = false → s.needGlobalCoalesce = FALSE → CachedReadable s →
    A.length < fuel → ∃ r s',
    memFree fuel s (t.addr + BLOCK_HEADER) 1 = some (r, s')
      ∧ Rejoined s' A t B := by
  intro hall
  let c := (Lib.run (client fun _ _ => True) [.alloc 9 8] (opened 24)).get
    (by decide +kernel)
  let r := (memFree 9 c.heap 65616 1).get (by decide +kernel)
  obtain ⟨_, s', hrun, -, -, -, L', -, hL', -⟩ := hall c.heap []
    ⟨65584, NULL, false⟩ [⟨65624, NULL, true⟩] 9 (by decide +kernel) rfl
    (by decide +kernel) ⟨.inr (by decide +kernel), .inr (by decide +kernel)⟩
    (by decide)
  have hr : memFree 9 c.heap 65616 1 = some (r.1, r.2) :=
    (Option.some_get _).symm
  obtain ⟨-, rfl⟩ := Prod.mk.inj (Option.some.inj (hr.symm.trans hrun))
  have hchain : Chain r.2.mem [⟨65584, 65624, true⟩] := by decide +kernel
  have hunbroken := hL'.unbroken
  rw [hL'.eq_of_chain hchain (by decide +kernel)] at hunbroken
  exact absurd hunbroken (by decide)

end OperatingSystem.Heap
