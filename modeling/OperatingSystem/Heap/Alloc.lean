/-
`Mem_Alloc` keeps the invariant where the guard holds.

The search ends at a FREE block of the chain, together with the last FREE
block in front of it (`Chosen`): the fast path walks back along the chain,
the scan remembers the block it comes from, and by the thread these are the
same. The block is then cut, or taken whole; `takeBlock_eq` says what the
chain looks like in either case.
-/
import OperatingSystem.Heap.Inv

namespace OperatingSystem.Heap

open Lib (Words i32 i64 firstListed lastListed relink Threaded NoneListed)

variable {s s' s₁ s₂ : State} {A B L L' : List Block} {t : Block}
  {fuel : Nat} {c c' : Choice} {size n p : Int}

-- ============================================================= round_to

/-- Where nothing overflows, `round_to` rounds up. -/
theorem roundTo_of_range {val base : Int} (hval : 1 ≤ val) (hbase : 0 < base)
    (hsum : val + base ≤ 2147483648) :
    roundTo val base = (val - 1) / base * base + base := by
  have hnonneg : 0 ≤ (val - 1) / base * base :=
    Int.mul_nonneg (Int.ediv_nonneg (by omega) (by omega)) (by omega)
  have hle : (val - 1) / base * base ≤ val - 1 :=
    Int.ediv_mul_le _ (by omega)
  unfold roundTo
  rw [Lib.i32_of_range (n := val) (by omega) (by omega),
    Lib.i32_of_range (n := val - 1) (by omega) (by omega),
    Lib.i32_of_range (n := base) (by omega) (by omega),
    Int.tdiv_eq_ediv_of_nonneg (by omega),
    Lib.i32_of_range (n := (val - 1) / base * base) (by omega) (by omega),
    Lib.i32_of_range (by omega) (by omega)]

/-- `round_to` rounds a request up to a multiple of eight. -/
theorem roundTo_block (hlo : 1 ≤ size) (hhi : size ≤ 2147483640) :
    size ≤ roundTo size BLOCK_SIZE ∧ roundTo size BLOCK_SIZE < size + 8
      ∧ roundTo size BLOCK_SIZE % 8 = 0 := by
  rw [roundTo_of_range hlo (by decide) (by unfold BLOCK_SIZE; omega),
    BLOCK_SIZE]
  omega

-- ============================================================ the search

/-- The block the search has chosen, the FREE block in front of it, and its
size as an `int`. -/
structure Chosen (s : State) (c : Choice) (A : List Block) (t : Block)
    (B : List Block) : Prop where
  free : t.listed = true
  block : c.nextToAllocate = t.addr
  prev : c.prevFree = lastListed NULL A
  size : c.sizeToAllocate = i32 (blockSize s.lastBlockSize t B)

/-- What holds of the search's result: if it has chosen a block, this is
larger than `size` or the fast path's. -/
def ChosenIn (s : State) (L : List Block) (size : Int) (c : Choice) : Prop :=
  c.sizeToAllocate ≠ -1 → ∃ A t B, L = A ++ t :: B ∧ Chosen s c A t B
    ∧ (c.sizeToAllocate > size ∨ s.largest = t.addr
      ∧ FastPath s (blockSize s.lastBlockSize t B))

/-- `rank` only moves the cached pointers, the larger one to `curr`. -/
theorem rank_eq {curr available : Int}
    (h : rank s curr available c = some c') :
    c'.sizeToAllocate = c.sizeToAllocate ∧ c'.prevFree = c.prevFree
      ∧ c'.nextToAllocate = c.nextToAllocate
      ∧ (c'.largest = curr ∨ c'.largest = c.largest) := by
  unfold rank at h
  simp only [Option.bind_eq_bind, Option.bind_eq_some_iff] at h
  obtain ⟨sizeOfLargest, -, h⟩ := h
  split at h
  case isTrue =>
    obtain rfl := Option.some.inj h
    exact ⟨rfl, rfl, rfl, .inl rfl⟩
  case isFalse =>
    simp only [Option.bind_eq_some_iff] at h
    obtain ⟨sizeOfSecond, -, h⟩ := h
    split at h
    case isTrue =>
      obtain rfl := Option.some.inj h
      exact ⟨rfl, rfl, rfl, .inr rfl⟩
    case isFalse =>
      obtain rfl := Option.some.inj h
      exact ⟨rfl, rfl, rfl, .inr rfl⟩

/-- The scan stays on the thread: `curr` is a FREE block and `temp1` the
FREE block before it. -/
theorem scan_spec (h : Inv s L) : ∀ (fuel : Nat) (curr temp1 : Int)
    (c c' : Choice),
    (curr ≠ NULL → ∃ A t B, L = A ++ t :: B ∧ t.listed = true
      ∧ curr = t.addr ∧ temp1 = lastListed NULL A) →
    (c.largest ≠ NULL → (c.largest, true) ∈ shapes L) →
    ChosenIn s L size c → scan s size fuel curr temp1 c = some c' →
    (c'.largest ≠ NULL → (c'.largest, true) ∈ shapes L)
      ∧ ChosenIn s L size c' := by
  intro fuel
  induction fuel with
  | zero => intro curr temp1 c c' _ _ _ hrun; cases hrun
  | succ fuel ih =>
      intro curr temp1 c c' hcurr hl hc hrun
      rw [scan] at hrun
      by_cases hnull : curr = NULL
      · rw [if_pos hnull] at hrun
        obtain rfl := Option.some.inj hrun
        exact ⟨hl, hc⟩
      obtain ⟨A, t, B, rfl, ht, rfl, rfl⟩ := hcurr hnull
      rw [if_neg hnull, getBlockSize_eq h.chain] at hrun
      simp only [Option.bind_eq_bind, Option.bind_some,
        Option.bind_eq_some_iff] at hrun
      obtain ⟨c₁, hrank, nextFree, hnext, hrun⟩ := hrun
      rw [State.nextFree_eq h.chain.mem] at hnext
      obtain rfl := Option.some.inj hnext
      obtain ⟨hsize, hprev, hblock, hlargest⟩ := rank_eq hrank
      refine ih _ _ _ _ ?_ ?_ ?_ hrun
      · -- the next block of the thread
        intro hlink
        obtain ⟨-, ht', -⟩ := Lib.threaded_append.mp h.thread
        obtain ⟨D, d, E, rfl, hd, hD, heq⟩ := exists_of_first hlink
          (ht'.imp_right And.right)
        refine ⟨A ++ t :: D, d, E, ?_, hd, heq, ?_⟩
        · rw [List.append_assoc, List.cons_append]
        · rw [Lib.lastListed_split _ ht hD]
      · have hcand : c₁.largest ≠ NULL →
            (c₁.largest, true) ∈ shapes (A ++ t :: B) := by
          intro hne
          rcases hlargest with heq | heq
          · rw [heq]
            simp [shapes, ht]
          · rw [heq] at hne ⊢
            exact hl hne
        split
        · exact hcand
        · exact hcand
      · split
        case isTrue hbest =>
          exact fun _ => ⟨A, t, B, rfl, ⟨ht, rfl, rfl, rfl⟩, .inl hbest.1⟩
        case isFalse =>
          intro hchosen
          rw [hsize] at hchosen
          obtain ⟨A', t', B', heq, hc', hwhy⟩ := hc hchosen
          refine ⟨A', t', B', heq, ⟨hc'.free, hblock.trans hc'.block,
            hprev.trans hc'.prev, hsize.trans hc'.size⟩, ?_⟩
          rw [hsize]
          exact hwhy

/-- The search ends at a FREE block of the chain, if it finds one. -/
theorem search_spec (h : Inv s L) (hrun : search s fuel size = some c) :
    (c.largest ≠ NULL → c.secondLargest ≠ NULL →
      (c.largest, true) ∈ shapes L) ∧ ChosenIn s L size c := by
  have hstart : s.headFree ≠ NULL → ∃ A t B, L = A ++ t :: B
      ∧ t.listed = true ∧ s.headFree = t.addr
      ∧ NULL = lastListed NULL A := by
    intro hne
    obtain ⟨D, d, E, rfl, hd, hD, heq⟩ := exists_of_first hne h.headFree
    exact ⟨D, d, E, rfl, hd, heq, (Lib.lastListed_none hD).symm⟩
  have hscan : ∀ l m, (l ≠ NULL → (l, true) ∈ shapes L) →
      scan s size fuel s.headFree NULL (unchosen l m) = some c →
      (c.largest ≠ NULL → c.secondLargest ≠ NULL →
        (c.largest, true) ∈ shapes L) ∧ ChosenIn s L size c := by
    intro l m hl hrun
    obtain ⟨hlargest, hc⟩ := scan_spec h fuel s.headFree NULL (unchosen l m) c
      hstart hl (fun hne => absurd rfl hne) hrun
    exact ⟨fun hne _ => hlargest hne, hc⟩
  unfold search at hrun
  split at hrun
  case isTrue hboth =>
    have hcached := h.cached hboth.1 hboth.2
    simp only [Option.bind_eq_bind, Option.bind_eq_some_iff] at hrun
    obtain ⟨sizeOfLargest, hsize, sizeOfSecond, hsecond, hrun⟩ := hrun
    split at hrun
    case isTrue hge =>
      simp only [Option.bind_eq_some_iff] at hrun
      obtain ⟨prev, hprev, prevFree, hwalk, hrun⟩ := hrun
      obtain rfl := Option.some.inj hrun
      obtain ⟨A, t, B, rfl, heq⟩ := mem_shapes hcached
      obtain ⟨haddr, ht⟩ := Prod.mk.inj heq
      rw [haddr, State.prev_eq h.chain] at hprev
      obtain rfl := Option.some.inj hprev
      have hsize' := hsize
      rw [haddr, getBlockSize_eq h.chain] at hsize'
      obtain rfl := Option.some.inj hsize'
      refine ⟨fun _ _ => hcached, fun _ => ⟨A, t, B, rfl, ⟨ht.symm, haddr, ?_,
        rfl⟩, .inr ⟨haddr, hboth.1, hboth.2, hsize, sizeOfSecond, hsecond,
          hge⟩⟩⟩
      rcases nearestFree_eq fuel h.chain with hfound | ⟨hnone, -⟩
      · rw [hfound] at hwalk
        exact (Option.some.inj hwalk).symm
      · rw [hnone] at hwalk
        cases hwalk
    case isFalse => exact hscan _ _ (fun _ => hcached) hrun
  case isFalse =>
    refine hscan _ _ (fun hne => ?_) hrun
    obtain ⟨A, t, B, rfl, ht, haddr, -⟩ := hstart hne
    rw [haddr]
    simp [shapes, ht]

-- =========================================================== cutting

theorem State.store_eq_some {a v : Int} (h : s.store a v = some s') :
    s.mem.Mapped a ∧ s' = { s with mem := s.mem.put a v } := by
  obtain ⟨m', hm, rfl⟩ := Option.map_eq_some_iff.mp h
  obtain ⟨hmapped, rfl⟩ := Words.store_eq_some hm
  exact ⟨hmapped, rfl⟩

/-- Memory `m'` has a FREE header at `n`, between `t` and `B`, that `t` does
not lead to yet. -/
structure Headed (m m' : Words) (t : Block) (B : List Block) (n : Int) :
    Prop where
  base : m'.base = m.base
  size : m'.size = m.size
  low : m.Mapped n
  high : m.Mapped (n + 24)
  next : m'.word n = firstAddr B
  prev : m'.word (n + 8) = t.addr
  link : m'.word (n + 16) = t.link
  status : i32 (m'.word (n + 24)) = FREE
  first : ∀ b ∈ B.head?, m'.word (b.addr + 8) = n
  other : ∀ y, (y < n ∨ n + 32 ≤ y) → (∀ b ∈ B.head?, y ≠ b.addr + 8) →
    m'.word y = m.word y

/-- The writes to the fields of a new header, one after the other. -/
theorem headed_of_puts {m m₁ : Words} {w : Int}
    (hhi : ∀ b ∈ B.head?, n + 40 ≤ b.addr) (hlow : m.Mapped n)
    (hhigh : m.Mapped (n + 24)) (hbase : m₁.base = m.base)
    (hsize : m₁.size = m.size) (hnext : m₁.word n = firstAddr B)
    (hfirst : ∀ b ∈ B.head?, m₁.word (b.addr + 8) = n)
    (hother : ∀ y, y ≠ n → (∀ b ∈ B.head?, y ≠ b.addr + 8) →
      m₁.word y = m.word y) :
    Headed m (((m₁.put (n + 8) t.addr).put (n + 24) (Lib.withLow w FREE)).put
      (n + 16) t.link) t B n where
  base := hbase
  size := hsize
  low := hlow
  high := hhigh
  next := by
    rw [Words.put_word_ne (by omega), Words.put_word_ne (by omega),
      Words.put_word_ne (by omega), hnext]
  prev := by
    rw [Words.put_word_ne (by omega), Words.put_word_ne (by omega),
      Words.put_word_self]
  link := Words.put_word_self
  status := by
    rw [Words.put_word_ne (by omega), Words.put_word_self]
    exact Lib.i32_withLow (by decide) (by decide)
  first := fun b hb => by
    have := hhi b hb
    rw [Words.put_word_ne (by omega), Words.put_word_ne (by omega),
      Words.put_word_ne (by omega), hfirst b hb]
  other := fun y hy hne => by
    rw [Words.put_word_ne (by omega), Words.put_word_ne (by omega),
      Words.put_word_ne (by omega), hother y (by omega) hne]

/-- `new_next`'s header is written. -/
theorem newHeader_eq (h : Chain s.mem (A ++ t :: B)) (hlo : t.addr + 40 ≤ n)
    (hhi : ∀ b ∈ B, n + 40 ≤ b.addr)
    (hrun : newHeader s t.addr n = some s') :
    ∃ m', s' = { s with mem := m' } ∧ Headed s.mem m' t B n := by
  have hhead : ∀ b ∈ B.head?, n + 40 ≤ b.addr := fun b hb =>
    hhi b (List.mem_of_mem_head? hb)
  rw [newHeader, State.next_eq h] at hrun
  simp only [Option.bind_eq_bind, Option.bind_some,
    Option.bind_eq_some_iff] at hrun
  obtain ⟨s₁, hs₁, hrun⟩ := hrun
  obtain ⟨hlow, rfl⟩ := State.store_eq_some hs₁
  -- `next` of the new header, and `prev` of the block behind it
  obtain ⟨m₂, hbase, hsize, hnext, hfirst, hother, hrun⟩ : ∃ m₂ : Words,
      m₂.base = s.mem.base ∧ m₂.size = s.mem.size ∧ m₂.word n = firstAddr B
        ∧ (∀ b ∈ B.head?, m₂.word (b.addr + 8) = n)
        ∧ (∀ y, y ≠ n → (∀ b ∈ B.head?, y ≠ b.addr + 8) →
          m₂.word y = s.mem.word y)
        ∧ (do let s ← ({ s with mem := m₂ } : State).setPrev n t.addr
              let s ← s.setStatus n FREE
              let nextFree ← s.nextFree t.addr
              s.setNextFree n nextFree) = some s' := by
    cases B with
    | nil =>
        rw [firstAddr_nil, if_neg (not_not.mpr rfl)] at hrun
        exact ⟨s.mem.put n NULL, rfl, rfl, Words.put_word_self, nofun,
          fun y hy _ => Words.put_word_ne hy, hrun⟩
    | cons b rest =>
        have hb : Holds s.mem b := h.holds b (by simp)
        have hlt := hhead b rfl
        rw [firstAddr_cons, if_pos hb.ne_null] at hrun
        obtain ⟨s₂, hs₂, hrun⟩ := Option.bind_eq_some_iff.mp hrun
        obtain ⟨-, rfl⟩ := State.store_eq_some hs₂
        refine ⟨(s.mem.put n b.addr).put (b.addr + 8) n, rfl, rfl, ?_, ?_,
          fun y hy hne => ?_, hrun⟩
        · rw [Words.put_word_ne (by omega), Words.put_word_self,
            firstAddr_cons]
        · intro d hd
          cases hd
          exact Words.put_word_self
        · rw [Words.put_word_ne (hne b rfl), Words.put_word_ne hy]
  simp only [Option.bind_eq_bind, Option.bind_eq_some_iff] at hrun
  obtain ⟨s₃, hs₃, s₄, hs₄, nextFree, hfree, hs₅⟩ := hrun
  obtain ⟨-, rfl⟩ := State.store_eq_some hs₃
  simp only [State.setStatus, Option.bind_eq_bind,
    Option.bind_eq_some_iff] at hs₄
  obtain ⟨w, hw, hs₄⟩ := hs₄
  obtain ⟨hhigh, rfl⟩ := State.store_eq_some hs₄
  obtain ⟨-, hw⟩ := Words.load_eq_some hw
  -- the chosen block's `next_free` has not been touched
  obtain ⟨-, hfree⟩ := Words.load_eq_some hfree
  have hlink : nextFree = t.link := by
    have hne : ∀ b ∈ B.head?, t.addr + 16 ≠ b.addr + 8 := fun b hb => by
      have := hhead b hb
      omega
    rw [hfree, Words.put_word_ne (by omega), Words.put_word_ne (by omega),
      hother _ (by omega) hne, h.mem.link]
  obtain ⟨-, rfl⟩ := State.store_eq_some hs₅
  refine ⟨_, rfl, ?_⟩
  rw [hlink]
  have hhigh' : s.mem.Mapped (n + 24) := by
    have h₁ := hhigh.1
    have h₂ := hhigh.2
    rw [Words.put_base, hbase] at h₁
    rw [Words.put_base, Words.put_size, hbase, hsize] at h₂
    exact ⟨h₁, h₂⟩
  exact headed_of_puts hhead hlow hhigh' hbase hsize hnext hfirst hother

/-- A header that is complete is cut in behind `t` once `t` leads to it, in
a chain that may have got other links in the meantime. -/
theorem Headed.insert {m m' m'' : Words} (hm : Headed m m' t B n)
    (h : Chain m (A ++ t :: B)) (hlo : t.addr + 40 ≤ n)
    (hhi : ∀ b ∈ B, n + 40 ≤ b.addr) {t₁ : Block} {B₁ : List Block}
    (ht₁ : t₁.addr = t.addr) (hB₁ : B₁.map Lib.Cell.addr = B.map Lib.Cell.addr)
    (hL : Chain m'' (L ++ t₁ :: B₁))
    (hbase : m''.base = m.base) (hsize : m''.size = m.size) {m₂ : Words}
    (hbase₂ : m₂.base = m'.base) (hsize₂ : m₂.size = m'.size)
    (hagree : ∀ y, m'.word y = m.word y → m₂.word y = m''.word y)
    (hsame : ∀ y, (n ≤ y ∧ y < n + 32) ∨ (∃ b ∈ B.head?, y = b.addr + 8) →
      m₂.word y = m'.word y) :
    Edited m (m₂.put t.addr n) (L ++ t₁ :: ⟨n, t.link, true⟩ :: B₁) := by
  have hpos := h.mem.pos
  have hlow := hm.low
  have hhigh := hm.high
  -- the blocks behind are at the same addresses
  have hhead : ∀ b ∈ B₁.head?, ∃ c ∈ B.head?, c.addr = b.addr := by
    intro b hb
    have hmem : b.addr ∈ (B.map Lib.Cell.addr).head? := by
      rw [← hB₁, List.head?_map, hb]
      rfl
    rw [List.head?_map] at hmem
    exact Option.map_eq_some_iff.mp hmem
  have hhi₁ : ∀ b ∈ B₁, n + 40 ≤ b.addr := by
    intro b hb
    have hmem : b.addr ∈ B.map Lib.Cell.addr := hB₁ ▸ List.mem_map_of_mem hb
    obtain ⟨c, hc, heq⟩ := List.mem_map.mp hmem
    rw [← heq]
    exact hhi c hc
  have hout₁ : ∀ y, (∀ b ∈ B₁.head?, y ≠ b.addr + 8) →
      ∀ b ∈ B.head?, y ≠ b.addr + 8 := by
    intro y hne b hb
    have hmem : b.addr ∈ (B₁.map Lib.Cell.addr).head? := by
      rw [hB₁, List.head?_map, hb]
      rfl
    rw [List.head?_map] at hmem
    obtain ⟨c, hc, heq⟩ := Option.map_eq_some_iff.mp hmem
    rw [← heq]
    exact hne c hc
  have hheader : ∀ k, 0 ≤ k → k < 32 →
      (m₂.put t.addr n).word (n + k) = m'.word (n + k) := by
    intro k hk hk'
    rw [Words.put_word_ne (by omega)]
    exact hsame _ (.inl (by omega))
  have hzero := hheader 0 (by decide) (by decide)
  rw [Int.add_zero] at hzero
  rw [← ht₁] at hheader hzero hlo ⊢
  refine ⟨hbase₂.trans hm.base, hsize₂.trans hm.size, hL.insert ?_ ?_ hlo hhi₁
    ?_ ?_ ?_ Words.put_word_self ?_ ?_⟩
  · exact hbase₂.trans (hm.base.trans hbase.symm)
  · exact hsize₂.trans (hm.size.trans hsize.symm)
  · have hl := hlow.1
    have ha := hlow.2.2
    have hh := hhigh.2.1
    constructor
    case pos => dsimp only; omega
    case low => rw [Words.put_base, hbase₂, hm.base]; exact hl
    case high =>
      rw [Words.put_base, Words.put_size, hbase₂, hsize₂, hm.base, hm.size]
      dsimp only
      omega
    case aligned => exact ha
    case link => exact (hheader 16 (by decide) (by decide)).trans hm.link
    case status =>
      dsimp only
      rw [hheader 24 (by decide) (by decide)]
      exact hm.status
  · refine hzero.trans (hm.next.trans ?_)
    unfold firstAddr
    rw [hB₁]
  · refine (hheader 8 (by decide) (by decide)).trans (hm.prev.trans ht₁.symm)
  · intro b hb
    obtain ⟨c, hc, heq⟩ := hhead b hb
    have := hhi₁ b (List.mem_of_mem_head? hb)
    rw [Words.put_word_ne (by omega), ← heq, hsame _ (.inr ⟨c, hc, rfl⟩)]
    exact hm.first c hc
  · intro y hy hout hne
    rw [Words.put_word_ne hy]
    exact hagree y (hm.other y hout (hout₁ y hne))

/-- The `next_free` of a block is neither in a new header behind `t` nor the
`prev` of the block behind that one. -/
theorem link_outside {m : Words} (h : Chain m (A ++ t :: B))
    (hlo : t.addr + 40 ≤ n) (hhi : ∀ b ∈ B, n + 40 ≤ b.addr) {d : Block}
    (hd : d ∈ A ++ t :: B) {y : Int}
    (hy : (n ≤ y ∧ y < n + 32) ∨ ∃ b ∈ B.head?, y = b.addr + 8) :
    y ≠ d.addr + 16 := by
  have hplace : d.addr ≤ t.addr ∨ d ∈ B := by
    rcases List.mem_append.mp hd with hA | hd
    · have := h.before d hA
      exact .inl (by omega)
    · rcases List.mem_cons.mp hd with rfl | hB
      · exact .inl (Int.le_refl _)
      · exact .inr hB
  rcases hy with hy | ⟨b, hb, rfl⟩
  · rcases hplace with hle | hB
    · omega
    · have := hhi d hB
      omega
  · have hnb := hhi b (List.mem_of_mem_head? hb)
    rcases hplace with hle | hB
    · omega
    · cases B with
      | nil => cases hB
      | cons b' rest =>
          obtain rfl := Option.some.inj hb
          rcases List.mem_cons.mp hB with rfl | hB
          · omega
          · have := h.shift.behind d hB
            omega

/-- Cutting a block: the rest is a FREE block behind it and has its place
on the list. -/
theorem cut_eq {prevFree : Int} (h : Chain s.mem (A ++ t :: B))
    (hprev : prevFree = lastListed NULL A) (hlo : t.addr + 40 ≤ n)
    (hhi : ∀ b ∈ B, n + 40 ≤ b.addr)
    (hhead : newHeader s t.addr n = some s₁)
    (hlink : linkNew s₁ t.addr prevFree n = some s₂) :
    ∃ m', s₂ = { s with
          mem := m'
          headFree := if A.any Lib.Cell.listed then s.headFree else n }
      ∧ Edited s.mem m' (relink n A ++ t :: ⟨n, t.link, true⟩ :: B) := by
  obtain ⟨m₁, rfl, hm⟩ := newHeader_eq h hlo hhi hhead
  unfold linkNew at hlink
  rcases Lib.exists_last A with hnone | ⟨D, q, E, rfl, hq, hE⟩
  · rw [hprev, Lib.lastListed_none hnone, if_neg (not_not.mpr rfl)] at hlink
    obtain ⟨-, rfl⟩ := State.store_eq_some hlink
    rw [Lib.noneListed_iff.mp hnone, if_neg Bool.false_ne_true,
      Lib.relink_none hnone]
    exact ⟨_, rfl, hm.insert h hlo hhi rfl rfl h rfl rfl rfl rfl
      (fun _ hy => hy) fun _ _ => rfl⟩
  · have hqc := h.regroup
    have hqt := h.before q (by simp)
    have hany : (D ++ q :: E).any Lib.Cell.listed = true := by
      simp [hq]
    rw [hprev, Lib.lastListed_split _ hq hE, if_pos hqc.mem.ne_null] at hlink
    obtain ⟨s₃, hs₃, hs₄⟩ := Option.bind_eq_some_iff.mp hlink
    obtain ⟨-, rfl⟩ := State.store_eq_some hs₃
    obtain ⟨-, rfl⟩ := State.store_eq_some hs₄
    rw [hany, if_pos rfl, Lib.relink_split hq hE]
    have hL := hqc.setLink n
    rw [← List.cons_append, ← List.append_assoc] at hL
    exact ⟨_, rfl, hm.insert h hlo hhi rfl rfl hL rfl rfl rfl rfl
      (fun y hy => Words.put_word_congr hy) fun y hy =>
        Words.put_word_ne (link_outside h hlo hhi (by simp) hy)⟩

/-- The cut with everything around it: the cached pointers and the recorded
size of the last block. -/
theorem splitBlock_eq (h : Chain s.mem (A ++ t :: B)) (hc : Chosen s c A t B)
    (hlo : t.addr + 40 ≤ t.addr + BLOCK_HEADER + size)
    (hhi : ∀ b ∈ B, t.addr + BLOCK_HEADER + size + 40 ≤ b.addr)
    (hrun : splitBlock s c size = some s') :
    ∃ m' l m, s' = { s with
          mem := m'
          headFree := if A.any Lib.Cell.listed then s.headFree
            else t.addr + BLOCK_HEADER + size
          largest := l
          secondLargest := m
          lastBlockSize := if B = [] then i64 (s.lastBlockSize - size)
            else s.lastBlockSize }
      ∧ (m ≠ NULL → l = t.addr + BLOCK_HEADER + size ∧ m = s.secondLargest
        ∧ ∃ sizeOfNew sizeOfSecond,
          getBlockSize { s with mem := m' } (t.addr + BLOCK_HEADER + size)
            = some sizeOfNew
          ∧ getBlockSize { s with mem := m' } s.secondLargest
            = some sizeOfSecond
          ∧ sizeOfNew > sizeOfSecond)
      ∧ Edited s.mem m' (relink (t.addr + BLOCK_HEADER + size) A
        ++ t :: ⟨t.addr + BLOCK_HEADER + size, t.link, true⟩ :: B) := by
  unfold splitBlock at hrun
  rw [hc.block] at hrun
  simp only [Option.bind_eq_bind, Option.bind_eq_some_iff] at hrun
  obtain ⟨s₁, hhead, s₂, hlink, hrun⟩ := hrun
  obtain ⟨m', rfl, hed⟩ := cut_eq h hc.prev hlo hhi hhead hlink
  obtain ⟨sizeOfNew, hnew, sizeOfSecond, hsecond, next, hnext, hrun⟩ := hrun
  obtain rfl := Option.some.inj hrun
  have hcn := hed.chain.shift
  have hnull := hcn.firstAddr_eq_null
  have hnext' : next = firstAddr B := by
    have hread := State.next_eq (s := { s with mem := m' }) hcn
    split at hnext
    · exact Option.some.inj (hnext.symm.trans hread)
    · exact Option.some.inj (hnext.symm.trans hread)
  rw [hnext']
  by_cases hB : B = []
  · rw [if_pos (hnull.mpr hB), if_pos hB]
    split
    case isTrue hgt =>
      exact ⟨m', _, _, rfl, fun _ => ⟨rfl, rfl, _, _, hnew, hsecond, hgt⟩, hed⟩
    case isFalse => exact ⟨m', _, _, rfl, fun hne => absurd rfl hne, hed⟩
  · rw [if_neg (mt hnull.mp hB), if_neg hB]
    split
    case isTrue hgt =>
      exact ⟨m', _, _, rfl, fun _ => ⟨rfl, rfl, _, _, hnew, hsecond, hgt⟩, hed⟩
    case isFalse => exact ⟨m', _, _, rfl, fun hne => absurd rfl hne, hed⟩

/-- Taking a block whole moves only globals. -/
theorem takeWhole_eq (h : Chain s.mem (A ++ t :: B)) (hc : Chosen s c A t B)
    (hrun : takeWhole s c size = some s') :
    s' = { s with
      headFree := if A.any Lib.Cell.listed then s.headFree else t.link
      sizeOfLastAllocate := if B = [] then size else s.sizeOfLastAllocate
      largest := s.secondLargest
      secondLargest := NULL } := by
  have hnull := h.firstAddr_eq_null
  have hprev : c.prevFree = NULL ↔ A.any Lib.Cell.listed = false := by
    rw [hc.prev]
    rcases Lib.exists_last A with hnone | ⟨D, q, E, rfl, hq, hE⟩
    · rw [Lib.lastListed_none hnone, Lib.noneListed_iff.mp hnone]
      exact ⟨fun _ => rfl, fun _ => rfl⟩
    · have hqh : Holds s.mem q := h.holds q (by simp)
      rw [Lib.lastListed_split _ hq hE]
      constructor
      · exact fun hz => absurd hz hqh.ne_null
      · simp [hq]
  unfold takeWhole at hrun
  simp only [Option.bind_eq_bind, hc.block] at hrun
  rw [State.nextFree_eq h.mem, Option.bind_some] at hrun
  by_cases hany : A.any Lib.Cell.listed = true
  · have hne : ¬c.prevFree = NULL := fun hz => by
      rw [hprev.mp hz] at hany
      cases hany
    rw [if_neg hne, State.next_eq h, Option.bind_some] at hrun
    rw [if_pos hany, ← Option.some.inj hrun]
    by_cases hB : B = []
    · rw [if_pos (hnull.mpr hB), if_pos hB]
    · rw [if_neg (mt hnull.mp hB), if_neg hB]
  · have hz := hprev.mpr (Bool.not_eq_true _ ▸ hany)
    have hnext : ({ s with headFree := t.link } : State).next t.addr
        = some (firstAddr B) := State.next_eq h
    rw [if_pos hz, hnext, Option.bind_some] at hrun
    rw [if_neg hany, ← Option.some.inj hrun]
    by_cases hB : B = []
    · rw [if_pos (hnull.mpr hB), if_pos hB]
    · rw [if_neg (mt hnull.mp hB), if_neg hB]

-- ======================================================== the whole call

/-- The chain and the recorded sizes once `t` is handed out for `size`
bytes, a multiple of eight: it is cut, or taken whole. -/
inductive Taken (s s' : State) (A : List Block) (t : Block) (B : List Block)
    (size : Int) (L' : List Block) : Prop
  | cut (hhi : ∀ b ∈ B, t.addr + BLOCK_HEADER + size + 40 ≤ b.addr)
      (hlast : B = [] → size + 8 ≤ i32 s.lastBlockSize)
      (hL : shapes L' = shapes A ++ (t.addr, false)
        :: (t.addr + BLOCK_HEADER + size, true) :: shapes B)
      (hsize : Resized s s' (if B = [] then i64 (s.lastBlockSize - size)
        else s.lastBlockSize) s.sizeOfLastAllocate)
  | whole (hL : shapes L' = shapes A ++ (t.addr, false) :: shapes B)
      (hsize : Resized s s' s.lastBlockSize
        (if B = [] then size else s.sizeOfLastAllocate))

/-- The invariant of a state that has new headers, a new `head_free` and
new cached pointers. -/
theorem Inv.edited (h : Inv s L) {m' : Words} {hf l m : Int}
    (hed : Edited s.mem m' L') (hstart : firstAddr L' = firstAddr L)
    (hthread : Threaded NULL NULL L')
    (hfree : hf = NULL ∨ hf = firstListed NULL L')
    (hcached : l ≠ NULL → m ≠ NULL → (l, true) ∈ shapes L')
    (left last sola err : Int) :
    Inv { s with
      mError := err
      mem := m'
      headFree := hf
      largest := l
      secondLargest := m
      remainingSize := left
      lastBlockSize := last
      sizeOfLastAllocate := sola } L' :=
  h.rebuild ⟨rfl, rfl, rfl, hed.base, hed.size⟩ hed.chain hstart hthread hfree
    hcached

/-- The list in front of a FREE block leads to what takes its place. -/
theorem Inv.headFree_cut (h : Inv s (A ++ t :: B)) {D : List Block}
    {a : Int} (ha : a = NULL ∨ a = firstListed NULL D) :
    (if A.any Lib.Cell.listed then s.headFree else a) = NULL
      ∨ (if A.any Lib.Cell.listed then s.headFree else a)
        = firstListed NULL (A ++ D) := by
  cases hany : A.any Lib.Cell.listed with
  | true =>
      have hhead := h.headFree
      have hfirst : firstListed (firstListed NULL D) A
          = firstListed (firstListed NULL (t :: B)) A :=
        Lib.firstListed_of_any hany
      rw [Lib.firstListed_append] at hhead
      rw [if_pos rfl, Lib.firstListed_append, hfirst]
      exact hhead
  | false =>
      rw [if_neg Bool.false_ne_true, Lib.firstListed_append,
        Lib.firstListed_none (Lib.noneListed_iff.mpr hany)]
      exact ha

/-- A block that is taken whole leaves the list, unless a FREE block in
front of it leads to it. -/
theorem Inv.thread_whole (h : Inv s (A ++ t :: B)) (ht : t.listed = true)
    (hunlinks : lastListed NULL A ≠ NULL →
      s.nextFree (lastListed NULL A) ≠ some t.addr) :
    Threaded NULL (firstListed NULL B) A := by
  obtain ⟨hA, -⟩ := Lib.threaded_append.mp h.thread
  rcases Lib.exists_last A with hnone | ⟨D, q, E, rfl, hq, hE⟩
  · exact hA.of_none hnone
  · have hqc := h.chain.regroup
    rw [Lib.lastListed_split _ hq hE, State.nextFree_eq hqc.mem] at hunlinks
    have hne := hunlinks hqc.mem.ne_null
    obtain ⟨-, hlink, -⟩ := Lib.threaded_append.mp hA
    have hlink' : q.link = NULL := by
      refine hlink.resolve_right fun hl => hne ?_
      rw [hl.2, Lib.firstListed_none hE, firstListed, if_pos ht]
    exact hA.relast (a := q.link) hq hE (.inl hlink')

/-- The last two writes of `Mem_Alloc`. -/
theorem handOut_eq (h : Chain s.mem (A ++ t :: B)) {actSize r : Int}
    (hrun : (do
      let s ← s.setNextFree t.addr NULL
      let s ← s.setStatus t.addr ALLOCATED
      some (t.addr + BLOCK_HEADER,
        { s with remainingSize := i64 (s.remainingSize - actSize) }))
      = some (r, s')) :
    r = t.addr + BLOCK_HEADER ∧ ∃ m', s' = { s with
          mem := m'
          remainingSize := i64 (s.remainingSize - actSize) }
      ∧ Edited s.mem m' (A ++ ⟨t.addr, NULL, false⟩ :: B) := by
  obtain ⟨m₁, hfree, hbase₁, hsize₁, hc₁⟩ := setNextFree_eq h NULL
  obtain ⟨m₂, hstatus, hbase₂, hsize₂, hc₂⟩ := setStatus_eq
    (s := { s with mem := m₁ }) hc₁ false
  rw [if_neg Bool.false_ne_true] at hstatus
  dsimp only at hstatus
  rw [hfree, Option.bind_eq_bind, Option.bind_some, hstatus,
    Option.bind_some] at hrun
  obtain ⟨hr, rfl⟩ := Prod.mk.inj (Option.some.inj hrun)
  exact ⟨hr.symm, m₂, rfl, hbase₂.trans hbase₁, hsize₂.trans hsize₁, hc₂⟩

/-- Handing out a block that has been cut. -/
theorem Inv.cut (h : Inv s (A ++ t :: B)) {m₁ m' : Words} {l m : Int}
    (hl : m ≠ NULL → l = n)
    (hed : Edited s.mem m₁ (relink n A ++ t :: ⟨n, t.link, true⟩ :: B))
    (hed' : Edited m₁ m' (relink n A
      ++ ⟨t.addr, NULL, false⟩ :: ⟨n, t.link, true⟩ :: B)) (left last : Int) :
    ∃ L', Inv { s with
          mem := m'
          headFree := if A.any Lib.Cell.listed then s.headFree else n
          largest := l
          secondLargest := m
          remainingSize := left
          lastBlockSize := last } L'
      ∧ shapes L' = shapes A ++ (t.addr, false) :: (n, true) :: shapes B := by
  obtain ⟨hA, hlink, hB⟩ := Lib.threaded_append.mp h.thread
  have hshapes : shapes (relink n A
        ++ ⟨t.addr, NULL, false⟩ :: ⟨n, t.link, true⟩ :: B)
      = shapes A ++ (t.addr, false) :: (n, true) :: shapes B := by
    rw [shapes_append, shapes_relink, shapes_cons, shapes_cons]
  have hfirst : firstListed NULL (⟨t.addr, NULL, false⟩ :: ⟨n, t.link, true⟩
      :: B) = n := by
    rw [firstListed, if_neg Bool.false_ne_true, firstListed, if_pos rfl]
  refine ⟨_, h.edited ⟨hed'.base.trans hed.base, hed'.size.trans hed.size,
    hed'.chain⟩ ?_ ?_ ?_ ?_ left last s.sizeOfLastAllocate s.mError,
    hshapes⟩
  · -- the chain starts where it started
    cases A with
    | nil => rfl
    | cons a rest =>
        unfold firstAddr
        rw [List.map_append, addrs_relink]
        rfl
  · refine Lib.threaded_append.mpr ⟨?_, .inl rfl, ?_, hB⟩
    · rw [hfirst]
      exact hA.relink
    · exact hlink.imp_right fun hl => ⟨rfl, hl.2⟩
  · have hfree := h.headFree_cut (D := ⟨t.addr, NULL, false⟩
      :: ⟨n, t.link, true⟩ :: B) (a := n) (.inr hfirst.symm)
    rw [Lib.firstListed_append, Lib.firstListed_relink,
      ← Lib.firstListed_append]
    exact hfree
  · intro _ hm
    rw [hshapes, hl hm]
    simp

/-- Handing out a block as it is. -/
theorem Inv.whole (h : Inv s (A ++ t :: B)) (ht : t.listed = true)
    (hunlinks : lastListed NULL A ≠ NULL →
      s.nextFree (lastListed NULL A) ≠ some t.addr)
    {m' : Words} (hed : Edited s.mem m' (A ++ ⟨t.addr, NULL, false⟩ :: B))
    (l left sola : Int) :
    Inv { s with
        mem := m'
        headFree := if A.any Lib.Cell.listed then s.headFree else t.link
        largest := l
        secondLargest := NULL
        remainingSize := left
        sizeOfLastAllocate := sola } (A ++ ⟨t.addr, NULL, false⟩ :: B) := by
  obtain ⟨-, hlink, hB⟩ := Lib.threaded_append.mp h.thread
  have hfirst : firstListed NULL (⟨t.addr, NULL, false⟩ :: B)
      = firstListed NULL B := by
    rw [firstListed, if_neg Bool.false_ne_true]
  refine h.edited hed ?_ ?_ ?_ (fun _ hm => absurd rfl hm) left
    s.lastBlockSize sola s.mError
  · cases A <;> rfl
  · refine Lib.threaded_append.mpr ⟨?_, .inl rfl, hB⟩
    rw [hfirst]
    exact h.thread_whole ht hunlinks
  · refine h.headFree_cut ?_
    rw [hfirst]
    exact hlink.imp_right And.right

theorem Inv.mem_small (h : Inv s L) : s.mem.size < 2147483648 := by
  rw [h.size]
  exact h.small

/-- Below the size of the region an `int` holds a block's size. -/
theorem Chain.i32_blockSize {m : Words} {b : Block} {last : Int}
    (h : Chain m (A ++ t :: b :: B)) (hsmall : m.size < 2147483648) :
    i32 (blockSize last t (b :: B)) = b.addr - (t.addr + 32) := by
  have hlow := h.mem.low
  have hbehind := h.behind b List.mem_cons_self
  have hhigh := (h.holds b (by simp)).high
  rw [blockSize]
  exact Lib.i32_of_range (by omega) (by omega)

/-- A block is cut only where the rest has room for a header and eight
bytes, or is the last block. -/
theorem Chain.room {m : Words} {last : Int} (h : Chain m (A ++ t :: B))
    (hsmall : m.size < 2147483648)
    (hc : c.sizeToAllocate = i32 (blockSize last t B))
    (hsplits : splits (firstAddr B) c size) :
    (∀ b ∈ B, t.addr + BLOCK_HEADER + size + 40 ≤ b.addr)
      ∧ (B = [] → size + 8 ≤ i32 last) := by
  unfold splits at hsplits
  rw [hc] at hsplits
  cases B with
  | nil =>
      rw [firstAddr_nil, if_neg (not_not.mpr rfl)] at hsplits
      exact ⟨nofun, fun _ => hsplits⟩
  | cons b rest =>
      have hb : Holds m b := h.holds b (by simp)
      rw [firstAddr_cons, if_pos hb.ne_null, h.i32_blockSize hsmall] at hsplits
      refine ⟨h.forall_behind ?_, nofun⟩
      intro d hd
      obtain rfl := Option.some.inj hd
      unfold BLOCK_HEADER BLOCK_SIZE at *
      omega

/-- Handing out the chosen block. -/
theorem takeBlock_eq (h : Inv s (A ++ t :: B)) (hc : Chosen s c A t B)
    (hsome : c.sizeToAllocate ≠ -1) {actSize : Int} (hsize : 8 ≤ size)
    (hunlinks : ∀ next, s.next c.nextToAllocate = some next →
      ¬splits next c size → c.prevFree ≠ NULL →
      s.nextFree c.prevFree ≠ some c.nextToAllocate)
    (hrun : takeBlock s c actSize size = some (p, s')) :
    p = t.addr + BLOCK_HEADER
      ∧ ∃ L', Inv s' L' ∧ Taken s s' A t B size L' := by
  unfold takeBlock at hrun
  simp only [Option.bind_eq_bind] at hrun
  rw [if_neg hsome] at hrun
  obtain ⟨next, hnext, hrun⟩ := Option.bind_eq_some_iff.mp hrun
  have hread : s.next c.nextToAllocate = some (firstAddr B) := by
    rw [hc.block]
    exact State.next_eq h.chain
  obtain rfl := Option.some.inj (hnext.symm.trans hread)
  -- the cached pointers are set first, which no header notices
  have hcached : ∀ s₀ : State, s₀ = { s with
        largest := c.largest
        secondLargest := c.secondLargest } →
      Chain s₀.mem (A ++ t :: B) ∧ Chosen s₀ c A t B := by
    intro s₀ hs₀
    subst hs₀
    exact ⟨h.chain, hc.free, hc.block, hc.prev, hc.size⟩
  obtain ⟨hchain, hc'⟩ := hcached _ rfl
  split at hrun
  case isTrue hsplits =>
    obtain ⟨s₁, hbranch, hrun⟩ := Option.bind_eq_some_iff.mp hrun
    rw [hc.block] at hrun
    obtain ⟨hhi, hlast⟩ := h.chain.room h.mem_small hc.size hsplits
    obtain ⟨m₁, l, m, rfl, hl, hed⟩ := splitBlock_eq hchain hc'
      (by unfold BLOCK_HEADER; omega) hhi hbranch
    obtain ⟨rfl, m', rfl, hed'⟩ := handOut_eq hed.chain hrun
    obtain ⟨L', hinv, hL'⟩ := h.cut (fun hm => (hl hm).1) hed hed' _ _
    exact ⟨rfl, L', hinv, .cut hhi hlast hL' ⟨rfl, rfl, rfl, rfl⟩⟩
  case isFalse hsplits =>
    obtain ⟨s₁, hbranch, hrun⟩ := Option.bind_eq_some_iff.mp hrun
    rw [hc.block] at hrun
    have heq := takeWhole_eq hchain hc' hbranch
    have hchain₁ : Chain s₁.mem (A ++ t :: B) := heq ▸ h.chain
    obtain ⟨rfl, m', rfl, hed⟩ := handOut_eq hchain₁ hrun
    subst heq
    refine ⟨rfl, A ++ ⟨t.addr, NULL, false⟩ :: B, ?_, .whole ?_
      ⟨rfl, rfl, rfl, rfl⟩⟩
    · refine h.whole hc.free ?_ hed _ _ _
      have hun := hunlinks _ hnext hsplits
      rw [hc.prev, hc.block] at hun
      exact hun
    · rw [shapes_append, shapes_cons]

-- ======================================================== allocations

/-- Handing out a block makes no header vanish, and a new header lies
behind the bytes that are handed out. -/
theorem Taken.headers (hT : Taken s s' A t B size L') {q : Int × Bool} :
    q ∈ shapes L' → q ∈ shapes A ∨ q = (t.addr, false) ∨ q ∈ shapes B
      ∨ q = (t.addr + BLOCK_HEADER + size, true)
        ∧ ∀ b ∈ B, t.addr + BLOCK_HEADER + size + 40 ≤ b.addr := by
  intro hq
  cases hT with
  | cut hhi hlast hL hsize =>
      rw [hL, List.mem_append, List.mem_cons, List.mem_cons] at hq
      rcases hq with hq | hq | hq | hq
      · exact .inl hq
      · exact .inr (.inl hq)
      · exact .inr (.inr (.inr ⟨hq, hhi⟩))
      · exact .inr (.inr (.inl hq))
  | whole hL hsize =>
      rw [hL, List.mem_append, List.mem_cons] at hq
      rcases hq with hq | hq | hq
      · exact .inl hq
      · exact .inr (.inl hq)
      · exact .inr (.inr (.inl hq))

theorem Taken.region (hT : Taken s s' A t B size L') :
    s'.globalHead = s.globalHead ∧ s'.actualSize = s.actualSize := by
  cases hT with
  | cut hhi hlast hL hsize => exact ⟨hsize.globalHead, hsize.actualSize⟩
  | whole hL hsize => exact ⟨hsize.globalHead, hsize.actualSize⟩

/-- The allocations there are keep their blocks. -/
theorem Taken.owns (hT : Taken s s' A t B size L')
    (h : Chain s.mem (A ++ t :: B)) (ht : t.listed = true) (hsize : 0 ≤ size)
    {q : Int × Int} (hq : Owns (A ++ t :: B) q) : Owns L' q := by
  obtain ⟨a, ha, haq, hend⟩ := hq
  simp only [shapes_append, shapes_cons, List.mem_append,
    List.mem_cons] at ha hend
  have hin : (a, false) ∈ shapes A ∨ (a, false) ∈ shapes B := by
    rcases ha with ha | ha | ha
    · exact .inl ha
    · rw [ht] at ha
      exact absurd (congrArg Prod.snd ha) Bool.false_ne_true
    · exact .inr ha
  refine ⟨a, ?_, haq, fun p hp hlt => ?_⟩
  · cases hT with
    | cut hhi hlast hL hsize' =>
        rw [hL, List.mem_append, List.mem_cons, List.mem_cons]
        exact hin.imp_right fun hb => .inr (.inr hb)
    | whole hL hsize' =>
        rw [hL, List.mem_append, List.mem_cons]
        exact hin.imp_right .inr
  · rcases hT.headers hp with hp | rfl | hp | ⟨rfl, hhi⟩
    · exact hend p (.inl hp) hlt
    · exact hend (t.addr, t.listed) (.inr (.inl rfl)) hlt
    · exact hend p (.inr (.inr hp)) hlt
    · -- the new header lies behind `t`, and in front of what follows `t`
      dsimp only at hlt ⊢
      rcases hin with hA | hB
      · obtain ⟨D, b, E, rfl, hb⟩ := mem_shapes hA
        have hbt := h.before b (by simp)
        have haddr : a = b.addr := congrArg Prod.fst hb
        have := hend (t.addr, t.listed) (.inr (.inl rfl)) (by dsimp only; omega)
        dsimp only at this
        unfold BLOCK_HEADER
        omega
      · obtain ⟨D, b, E, rfl, hb⟩ := mem_shapes hB
        have haddr : a = b.addr := congrArg Prod.fst hb
        have := hhi b (by simp)
        omega

/-- The block that is handed out has room for what it is asked for. -/
theorem Taken.owns_new (hT : Taken s s' A t B size L')
    (h : Chain s.mem (A ++ t :: B)) {k : Int} (hk : k ≤ size)
    (hfits : ∀ b ∈ B, t.addr + BLOCK_HEADER + size ≤ b.addr) :
    Owns L' (t.addr + BLOCK_HEADER, k) := by
  refine ⟨t.addr, ?_, rfl, fun p hp hlt => ?_⟩
  · cases hT with
    | cut hhi hlast hL hsize => rw [hL]; simp
    | whole hL hsize => rw [hL]; simp
  · dsimp only
    rcases hT.headers hp with hp | rfl | hp | ⟨rfl, -⟩
    · obtain ⟨D, b, E, rfl, rfl⟩ := mem_shapes hp
      have := h.before b (by simp)
      dsimp only at hlt
      omega
    · exact absurd hlt (Int.lt_irrefl _)
    · obtain ⟨D, b, E, rfl, rfl⟩ := mem_shapes hp
      have := hfits b (by simp)
      dsimp only
      omega
    · dsimp only
      omega

-- =============================================================== the rule

/-- `Mem_Alloc(size)` hands out block `t` of the chain `A ++ t :: B`. -/
structure HandsOut (s s' : State) (A : List Block) (t : Block)
    (B : List Block) (size : Int) (L' : List Block) : Prop where
  free : t.listed = true
  inv : Inv s' L'
  taken : Taken s s' A t B (roundTo size BLOCK_SIZE) L'
  served : size ≤ s.remainingSize
  rounds : size ≤ roundTo size BLOCK_SIZE
  positive : 8 ≤ roundTo size BLOCK_SIZE
  /-- The block has room for the rounded size, if another one follows. -/
  fits : ∀ b ∈ B, t.addr + BLOCK_HEADER + roundTo size BLOCK_SIZE ≤ b.addr
  /-- So has the recorded size of the last block. -/
  lastFits : B = [] → LastFits s size →
    roundTo size BLOCK_SIZE < i32 s.lastBlockSize
      ∨ roundTo size BLOCK_SIZE ≤ s.lastBlockSize

/-- A guarded `Mem_Alloc` returns `NULL` and leaves the chain alone, or it
hands out a FREE block. -/
theorem memAlloc_eq (h : Inv s L) (hlo : 1 ≤ size)
    (hok : size ≤ s.remainingSize → AllocOk fuel s size)
    (hrun : memAlloc fuel s size = some (p, s')) :
    (p = NULL ∧ Inv s' L
        ∧ Resized s s' s.lastBlockSize s.sizeOfLastAllocate)
      ∨ ∃ A t B L', L = A ++ t :: B ∧ p = t.addr + BLOCK_HEADER
        ∧ HandsOut s s' A t B size L' := by
  unfold memAlloc at hrun
  rw [if_neg (not_not.mpr h.ready)] at hrun
  split at hrun
  case isTrue =>
    obtain ⟨rfl, rfl⟩ := Prod.mk.inj (Option.some.inj hrun)
    exact .inl ⟨rfl, h.edited ⟨rfl, rfl, h.chain⟩ rfl h.thread h.headFree
      h.cached _ _ _ _, rfl, rfl, rfl, rfl⟩
  case isFalse hleft =>
    have hleft : size ≤ s.remainingSize := Int.not_lt.mp hleft
    have hok := hok hleft
    obtain ⟨hge, -, height⟩ := roundTo_block hlo hok.rounds
    obtain ⟨c, hsearch, hrun⟩ := Option.bind_eq_some_iff.mp hrun
    obtain ⟨hcached, hchosen⟩ := search_spec h hsearch
    by_cases hnone : c.sizeToAllocate = -1
    · unfold takeBlock at hrun
      rw [if_pos hnone] at hrun
      obtain ⟨rfl, rfl⟩ := Prod.mk.inj (Option.some.inj hrun)
      exact .inl ⟨rfl, h.edited ⟨rfl, rfl, h.chain⟩ rfl h.thread h.headFree
        hcached _ _ _ _, rfl, rfl, rfl, rfl⟩
    obtain ⟨A, t, B, rfl, hc, hwhy⟩ := hchosen hnone
    obtain ⟨rfl, L', hinv, hT⟩ := takeBlock_eq h hc hnone (by omega)
      (fun next hnext => hok.unlinks c next hsearch hnone hnext) hrun
    refine .inr ⟨A, t, B, L', rfl, rfl, hc.free, hinv, hT, hleft, hge,
      by omega, ?_, ?_⟩
    · cases B with
      | nil => exact nofun
      | cons b rest =>
          have hb : Holds s.mem b := h.chain.holds b (by simp)
          have hnext : s.next t.addr = some b.addr := State.next_eq h.chain
          -- the next header is far enough behind `t`
          have hfits : roundTo size BLOCK_SIZE ≤ b.addr - (t.addr + 32) := by
            rcases hwhy with hlarger | ⟨hlargest, hfast⟩
            · rw [hc.size, h.chain.i32_blockSize h.mem_small] at hlarger
              omega
            · rw [← hlargest] at hnext
              exact hok.fits _ _ hfast hnext hb.ne_null
          apply h.chain.forall_behind
          intro d hd
          obtain rfl := Option.some.inj hd
          unfold BLOCK_HEADER
          omega
    · intro hB hlast
      subst hB
      rcases hwhy with hlarger | ⟨hlargest, hfast⟩
      · rw [hc.size] at hlarger
        exact .inl hlarger
      · refine .inr (hlast _ hfast ?_)
        rw [hlargest]
        exact State.next_eq h.chain

end OperatingSystem.Heap
