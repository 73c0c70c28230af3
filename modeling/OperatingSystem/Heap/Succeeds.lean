/-
When `Mem_Alloc` succeeds.

# The search

The scan wants a block that is larger than the rounded request, where the
rest of the allocator would do with one that is as large: a block that fits
exactly is passed over. The fast path wants nothing, it takes the cached
largest block whatever its size, unless that is taken for "none found".

# What is written

A block that is cut gets a new header behind the requested bytes. For an
inner block that is in front of the next header. The last block's recorded
size can be more than what is mapped behind it, and then the new header is
where nothing is mapped (`Takes`).
-/
import OperatingSystem.Heap.Atomic
import OperatingSystem.Heap.Relinked

namespace OperatingSystem.Heap

open Lib (Words Reach Anything i32 firstListed lastListed)

variable {s s' s₁ : State} {m m' : Words} {A B L : List Block} {t : Block}
  {c : Choice} {fuel : Nat} {p q n a v size : Int} {τ : Type}

-- ============================================================= what is mapped

/-- The header at `p` is mapped. -/
def HeaderMapped (m : Words) (p : Int) : Prop := m.Mapped p ∧ m.Mapped (p + 24)

theorem HeaderMapped.field (h : HeaderMapped m p) {k : Int} (hlo : 0 ≤ k)
    (hhi : k ≤ 24) (hk : k % 8 = 0) : m.Mapped (p + k) := by
  obtain ⟨⟨h₁, -, h₃⟩, -, h₅, -⟩ := h
  exact ⟨by omega, by omega, by omega⟩

theorem Steady.mapped (h : Steady s s') : s'.mem.Mapped a ↔ s.mem.Mapped a := by
  unfold Words.Mapped
  rw [h.base, h.size]

theorem load_ends {k : Int → Option τ} : (∃ r, (m.load a).bind k = some r)
    ↔ m.Mapped a ∧ ∃ r, k (m.word a) = some r := by
  by_cases ha : m.Mapped a
  · rw [Words.load_of_mapped ha, Option.bind_some, and_iff_right ha]
  · simp [Words.load, ha]

theorem store_ends {k : State → Option τ} :
    (∃ r, (s.store a v).bind k = some r)
      ↔ s.mem.Mapped a ∧ ∃ r, k { s with mem := s.mem.put a v } = some r := by
  by_cases ha : s.mem.Mapped a
  · rw [State.store, Words.store_of_mapped ha, Option.map_some,
      Option.bind_some, and_iff_right ha]
  · simp [State.store, Words.store, ha]

theorem store_some : (∃ r, s.store a v = some r) ↔ s.mem.Mapped a := by
  have h := store_ends (s := s) (a := a) (v := v) (k := some)
  rw [Option.bind_fun_some] at h
  rw [h]
  simp

/-- The new header can be written where it and the three words that lead
there are mapped. -/
theorem newHeader_ends : (∃ s', newHeader s p n = some s')
    ↔ HeaderMapped s.mem n ∧ s.mem.Mapped p ∧ s.mem.Mapped (p + 16)
      ∧ (s.mem.word p ≠ NULL → s.mem.Mapped (s.mem.word p + 8)) := by
  -- the last four writes, whatever the state before
  have hrest : ∀ s : State, (∃ r, ((s.setPrev n p).bind fun s =>
      (s.setStatus n FREE).bind fun s =>
        (s.nextFree p).bind fun nextFree => s.setNextFree n nextFree) = some r)
      ↔ s.mem.Mapped (n + 8) ∧ s.mem.Mapped (n + 24) ∧ s.mem.Mapped (p + 16)
        ∧ s.mem.Mapped (n + 16) := by
    intro s
    unfold State.setPrev State.setStatus State.nextFree State.setNextFree
    simp only [Option.bind_eq_bind, Option.bind_assoc, load_ends, store_ends,
      store_some, Words.mapped_put]
    tauto
  unfold newHeader State.next State.setNext
  simp only [Option.bind_eq_bind, load_ends, store_ends]
  by_cases hnull : s.mem.word p = NULL
  · rw [if_neg (not_not.mpr hnull), Option.bind_some, hrest]
    simp only [Words.mapped_put]
    constructor
    · intro h
      exact ⟨⟨h.2.1, h.2.2.2.1⟩, h.1, h.2.2.2.2.1,
        fun hne => absurd hnull hne⟩
    · intro h
      exact ⟨h.2.1, h.1.1, h.1.field (by decide) (by decide) (by decide),
        h.1.2, h.2.2.1, h.1.field (by decide) (by decide) (by decide)⟩
  · rw [if_pos hnull]
    unfold State.setPrev at hrest ⊢
    simp only [store_ends, hrest, Words.mapped_put]
    constructor
    · intro h
      exact ⟨⟨h.2.1, h.2.2.2.2.1⟩, h.1, h.2.2.2.2.2.1, fun _ => h.2.2.1⟩
    · intro h
      exact ⟨h.2.1, h.1.1, h.2.2.2 hnull,
        h.1.field (by decide) (by decide) (by decide),
        h.1.2, h.2.2.1, h.1.field (by decide) (by decide) (by decide)⟩

theorem linkNew_ends : (∃ s', linkNew s p q n = some s')
    ↔ (q ≠ NULL → s.mem.Mapped (q + 16)) ∧ s.mem.Mapped p := by
  unfold linkNew State.setNextFree State.setNext
  by_cases hnull : q = NULL
  · rw [if_neg (not_not.mpr hnull), Option.bind_eq_bind, Option.bind_some,
      store_some]
    exact (and_iff_right fun hne => absurd hnull hne).symm
  · rw [if_pos hnull, Option.bind_eq_bind, store_ends, store_some,
      Words.mapped_put]
    exact and_congr_left fun _ => ⟨fun h _ => h, fun h => h hnull⟩

/-- Cutting a block. -/
theorem splitBlock_ends (hs : CachedReadable s) :
    (∃ s', splitBlock s c size = some s')
      ↔ HeaderMapped s.mem (c.nextToAllocate + BLOCK_HEADER + size)
        ∧ s.mem.Mapped c.nextToAllocate ∧ s.mem.Mapped (c.nextToAllocate + 16)
        ∧ (s.mem.word c.nextToAllocate ≠ NULL →
          s.mem.Mapped (s.mem.word c.nextToAllocate + 8))
        ∧ (c.prevFree ≠ NULL → s.mem.Mapped (c.prevFree + 16)) := by
  unfold splitBlock
  simp only [Option.bind_eq_bind]
  constructor
  · rintro ⟨s', hrun⟩
    obtain ⟨s₁, h₁, hrun⟩ := Option.bind_eq_some_iff.mp hrun
    obtain ⟨s₂, h₂, -⟩ := Option.bind_eq_some_iff.mp hrun
    obtain ⟨hnew, hp, hfree, hnext⟩ := newHeader_ends.mp ⟨s₁, h₁⟩
    have hprev := (linkNew_ends.mp ⟨s₂, h₂⟩).1
    rw [(steady_newHeader h₁).1.mapped] at hprev
    exact ⟨hnew, hp, hfree, hnext, hprev⟩
  · rintro ⟨hnew, hp, hfree, hnext, hprev⟩
    obtain ⟨s₁, h₁⟩ := newHeader_ends.mpr ⟨hnew, hp, hfree, hnext⟩
    have hs₁ := (steady_newHeader h₁).1
    obtain ⟨s₂, h₂⟩ := (linkNew_ends (s := s₁)
      (n := c.nextToAllocate + BLOCK_HEADER + size)).mpr
      ⟨fun hne => hs₁.mapped.mpr (hprev hne), hs₁.mapped.mpr hp⟩
    have hs₂ := hs₁.trans (steady_linkNew h₂)
    have hnew₂ := hs₂.mapped.mpr hnew.1
    obtain ⟨sizeOfNew, h₃⟩ := size_of_readable (.inr hnew₂)
    obtain ⟨sizeOfSecond, h₄⟩ := size_of_readable (hs₂.cachedReadable hs).2
    rw [h₁, Option.bind_some, h₂, Option.bind_some, h₃, Option.bind_some, h₄,
      Option.bind_some]
    unfold State.next
    rw [load_ends]
    refine ⟨?_, _, rfl⟩
    split
    · exact hnew₂
    · exact hnew₂

/-- Handing out `block`, with the FREE block `prevFree` in front of it, for
`size` bytes out of `available` writes to mapped memory only. -/
def Takes (s : State) (block prevFree available size : Int) : Prop :=
  HeaderMapped s.mem block
    ∧ (splits (s.mem.word block) ⟨NULL, NULL, available, prevFree, block⟩ size →
      HeaderMapped s.mem (block + BLOCK_HEADER + size)
        ∧ (s.mem.word block ≠ NULL → s.mem.Mapped (s.mem.word block + 8))
        ∧ (prevFree ≠ NULL → s.mem.Mapped (prevFree + 16)))

theorem takeWhole_ends : (∃ s', takeWhole s c size = some s')
    ↔ s.mem.Mapped (c.nextToAllocate + 16) ∧ s.mem.Mapped c.nextToAllocate := by
  unfold takeWhole State.nextFree
  simp only [Option.bind_eq_bind, load_ends]
  refine and_congr_right fun _ => ?_
  split
  · simp [State.next, load_ends]
  · simp [State.next, load_ends]

/-- The last two writes to the block. -/
theorem handOut_ends {actSize : Int} :
    (∃ r, (do
      let s ← s.setNextFree p NULL
      let s ← s.setStatus p ALLOCATED
      some (p + BLOCK_HEADER,
        { s with remainingSize := Lib.i64 (s.remainingSize - actSize) }))
        = some r) ↔ s.mem.Mapped (p + 16) ∧ s.mem.Mapped (p + 24) := by
  unfold State.setNextFree State.setStatus
  simp only [Option.bind_eq_bind, Option.bind_assoc, load_ends, store_ends,
    Words.mapped_put]
  simp

/-- The end of `Mem_Alloc`, once a block has been found. -/
theorem takeBlock_ends {actSize : Int} (hm : CachedReadable
      { s with largest := c.largest, secondLargest := c.secondLargest })
    (hsome : c.sizeToAllocate ≠ -1) :
    (∃ r, takeBlock s c actSize size = some r)
      ↔ Takes s c.nextToAllocate c.prevFree c.sizeToAllocate size := by
  unfold takeBlock Takes
  rw [if_neg hsome]
  generalize hs : { s with
    largest := c.largest, secondLargest := c.secondLargest } = s₀ at hm ⊢
  have hmem : s₀.mem = s.mem := by rw [← hs]
  unfold State.next
  simp only [Option.bind_eq_bind, load_ends, hmem]
  have hcut : splits (s.mem.word c.nextToAllocate) ⟨NULL, NULL,
      c.sizeToAllocate, c.prevFree, c.nextToAllocate⟩ size
      ↔ splits (s.mem.word c.nextToAllocate) c size := Iff.rfl
  rw [hcut]
  by_cases hsplit : splits (s.mem.word c.nextToAllocate) c size
  · rw [if_pos hsplit]
    have hends : (∃ s', splitBlock s₀ c size = some s') ↔ _ :=
      splitBlock_ends hm
    rw [hmem] at hends
    constructor
    · rintro ⟨hp, r, hrun⟩
      obtain ⟨s₁, h₁, hrun⟩ := Option.bind_eq_some_iff.mp hrun
      obtain ⟨hnew, -, -, hnext, hprev⟩ := hends.mp ⟨s₁, h₁⟩
      obtain ⟨-, hstatus⟩ := handOut_ends.mp ⟨r, hrun⟩
      rw [(steady_splitBlock h₁).mapped, hmem] at hstatus
      exact ⟨⟨hp, hstatus⟩, fun _ => ⟨hnew, hnext, hprev⟩⟩
    · rintro ⟨hp, hall⟩
      obtain ⟨hnew, hnext, hprev⟩ := hall hsplit
      have hfree := hp.field (k := 16) (by decide) (by decide) (by decide)
      obtain ⟨s₁, h₁⟩ := hends.mpr ⟨hnew, hp.1, hfree, hnext, hprev⟩
      have hs₁ := steady_splitBlock h₁
      rw [← hmem, ← hs₁.mapped] at hfree
      have hstatus := hp.2
      rw [← hmem, ← hs₁.mapped] at hstatus
      rw [h₁]
      exact ⟨hp.1, handOut_ends.mpr ⟨hfree, hstatus⟩⟩
  · rw [if_neg hsplit]
    have hends : (∃ s', takeWhole s₀ c size = some s') ↔ _ := takeWhole_ends
    rw [hmem] at hends
    constructor
    · rintro ⟨hp, r, hrun⟩
      obtain ⟨s₁, h₁, hrun⟩ := Option.bind_eq_some_iff.mp hrun
      obtain ⟨-, hstatus⟩ := handOut_ends.mp ⟨r, hrun⟩
      rw [(steady_takeWhole h₁).mapped, hmem] at hstatus
      exact ⟨⟨hp, hstatus⟩, fun h => absurd h hsplit⟩
    · rintro ⟨hp, -⟩
      have hfree := hp.field (k := 16) (by decide) (by decide) (by decide)
      obtain ⟨s₁, h₁⟩ := hends.mpr ⟨hfree, hp.1⟩
      have hs₁ := steady_takeWhole h₁
      rw [← hmem, ← hs₁.mapped] at hfree
      have hstatus := hp.2
      rw [← hmem, ← hs₁.mapped] at hstatus
      rw [h₁]
      exact ⟨hp.1, handOut_ends.mpr ⟨hfree, hstatus⟩⟩

-- ============================================================== the search

/-- `Mem_Alloc(size)` returns an address. -/
def Succeeds (s : State) (size : Int) : Prop :=
  ∃ fuel p s', memAlloc fuel s size = some (p, s') ∧ p ≠ NULL

/-- A block suits for `size` bytes, a rounded size, and can be handed out:
the cached largest one on the fast path if its size is not taken for "none
found", and else a largest FREE one if it is larger than that. -/
def Suits (s : State) (L : List Block) (size : Int) : Prop :=
  (∃ k prev prevFree fuel, FastPath s k ∧ i32 k ≠ -1
      ∧ s.prev s.largest = some prev ∧ nearestFree s fuel prev = some prevFree
      ∧ Takes s s.largest prevFree (i32 k) size)
    ∨ (¬∃ k, FastPath s k) ∧ ∃ A t B, L = A ++ t :: B ∧ Sought s A t B
      ∧ size < i32 (blockSize s.lastBlockSize t B)
      ∧ -1 < i32 (blockSize s.lastBlockSize t B)
      ∧ Takes s t.addr (lastListed NULL A)
        (i32 (blockSize s.lastBlockSize t B)) size

theorem search_fast {k : Int} (h : FastPath s k) :
    search s fuel size = (s.prev s.largest).bind fun prev =>
      (nearestFree s fuel prev).bind fun prevFree =>
        some ⟨s.largest, s.secondLargest, i32 k, prevFree, s.largest⟩ := by
  obtain ⟨hl, hm, hk, k₂, hk₂, hge⟩ := h
  unfold search
  rw [if_pos ⟨hl, hm⟩, hk, hk₂]
  simp only [Option.bind_eq_bind, Option.bind_some]
  rw [if_pos hge]

/-- Off the fast path the search is a scan. -/
theorem search_slow (h : ¬∃ k, FastPath s k) (hs : CachedReadable s)
    (hfree : Readable s.mem s.headFree) :
    ∃ l m, Readable s.mem l ∧ Readable s.mem m ∧ ∀ fuel size,
      search s fuel size = scan s size fuel s.headFree NULL (unchosen l m) := by
  unfold search
  by_cases hboth : s.largest ≠ NULL ∧ s.secondLargest ≠ NULL
  · obtain ⟨k, hk⟩ := size_of_readable hs.1
    obtain ⟨k₂, hk₂⟩ := size_of_readable hs.2
    refine ⟨s.largest, s.secondLargest, hs.1, hs.2, fun fuel size => ?_⟩
    rw [if_pos hboth, hk, hk₂]
    simp only [Option.bind_eq_bind, Option.bind_some]
    exact if_neg fun hge => h ⟨k, hboth.1, hboth.2, hk, k₂, hk₂, hge⟩
  · exact ⟨s.headFree, s.headFree, hfree, hfree, fun fuel size =>
      if_neg hboth⟩

/-- With as many iterations as there are FREE blocks the scan ends. -/
theorem WellFormed.scan_ends (h : WellFormed s L) {l m : Int}
    (hl : Readable s.mem l) (hm : Readable s.mem m)
    (hfuel : (frees L).length < fuel) :
    ∃ c, Heap.scan s size fuel s.headFree NULL (unchosen l m) = some c :=
  Heap.scan_ends h.freeNodes NULL hfuel hl hm

theorem WellFormed.readable_headFree (h : WellFormed s L) :
    Readable s.mem s.headFree := by
  have hnodes := h.freeNodes
  generalize s.headFree = p, frees L = nodes at hnodes
  cases hnodes with
  | nil => exact .inl rfl
  | cons hmapped => exact .inr hmapped

/-- A search that finds a block which can be handed out. -/
theorem succeeds_of_search (h : s.ready) (hle : size ≤ s.remainingSize)
    (hbase : 0 ≤ s.mem.base) (hs : CachedReadable s)
    (hsearch : search s fuel (roundTo size BLOCK_SIZE) = some c)
    (hsome : c.sizeToAllocate ≠ -1)
    (htakes : Takes s c.nextToAllocate c.prevFree c.sizeToAllocate
      (roundTo size BLOCK_SIZE)) : Succeeds s size := by
  have hread := readable_search hs.1 hs.2 hsearch
  obtain ⟨⟨p, s'⟩, hrun⟩ : ∃ r, takeBlock s c size _ = some r :=
    (takeBlock_ends hread hsome).mpr htakes
  refine ⟨fuel, p, s', ?_, ?_⟩
  · unfold memAlloc
    rw [if_neg (not_not.mpr h), if_neg (Int.not_lt.mpr hle), hsearch]
    exact hrun
  · rcases takeBlock_answer hrun with ⟨hnone, -⟩ | ⟨-, rfl, hlow, -⟩
    · exact absurd hnone hsome
    · unfold NULL BLOCK_HEADER
      omega

theorem WellFormed.succeeds_iff (h : WellFormed s L) (hs : CachedReadable s)
    (hbase : 0 ≤ s.mem.base) (hle : size ≤ s.remainingSize) :
    Succeeds s size ↔ Suits s L (roundTo size BLOCK_SIZE) := by
  have hfree := h.readable_headFree
  constructor
  · rintro ⟨fuel, p, s', hrun, hp⟩
    obtain ⟨c, hsearch, hsome, htake⟩ := memAlloc_takes hrun hp
    have hread := readable_search hs.1 hs.2 hsearch
    have htakes := (takeBlock_ends hread hsome).mp ⟨_, htake⟩
    by_cases hfast : ∃ k, FastPath s k
    · obtain ⟨k, hfast⟩ := hfast
      rw [search_fast hfast] at hsearch
      obtain ⟨prev, hprev, hsearch⟩ := Option.bind_eq_some_iff.mp hsearch
      obtain ⟨q, hwalk, hsearch⟩ := Option.bind_eq_some_iff.mp hsearch
      obtain rfl := Option.some.inj hsearch
      exact .inl ⟨k, prev, q, fuel, hfast, hsome, hprev, hwalk, htakes⟩
    · obtain ⟨l, m, -, -, hscan⟩ := search_slow hfast hs hfree
      rw [hscan] at hsearch
      obtain ⟨A, t, B, hL, hsought, hc, hgt, hpos⟩ :=
        (h.fullScan hsearch).sought hfast hsome
      rw [hc.block, hc.prev, hc.size] at htakes
      rw [hc.size] at hgt hpos
      exact .inr ⟨hfast, A, t, B, hL, hsought, hgt, hpos, htakes⟩
  · rintro (⟨k, prev, q, fuel, hfast, hsome, hprev, hwalk, htakes⟩
      | ⟨hslow, A, t, B, rfl, hsought, hgt, hpos, htakes⟩)
    · have hsearch : Heap.search s fuel (roundTo size BLOCK_SIZE)
          = some ⟨s.largest, s.secondLargest, i32 k, q, s.largest⟩ := by
        rw [search_fast hfast, hprev, Option.bind_some, hwalk,
          Option.bind_some]
      exact succeeds_of_search h.ready hle hbase hs hsearch hsome htakes
    · obtain ⟨l, m, hl, hm, hscan⟩ := search_slow hslow hs hfree
      obtain ⟨c, hrun⟩ : ∃ c, Heap.scan s (roundTo size BLOCK_SIZE) _
          s.headFree NULL (unchosen l m) = some c :=
        h.scan_ends hl hm (Nat.lt_succ_self _)
      have hlead := h.fullScan hrun
      have ht : t.listed = true := by
        rcases hsought with ⟨hfast, -⟩ | ⟨-, ht, -⟩
        · exact absurd hfast hslow
        · exact ht
      have hsome : c.sizeToAllocate ≠ -1 := by
        rcases hlead with ⟨-, hall⟩ | ⟨-, -, -, -, -, -, hpos', -⟩
        · have := hall _ (span_iff.mpr ⟨A, t, B, rfl, rfl⟩) ht
          dsimp only at this
          omega
        · omega
      obtain ⟨A', t', B', heq, hsought', hc, -⟩ := hlead.sought hslow hsome
      obtain ⟨rfl, rfl, rfl⟩ := hsought.unique hsought' h.chain heq
      rw [← hscan] at hrun
      refine succeeds_of_search h.ready hle hbase hs hrun hsome ?_
      rw [hc.block, hc.prev, hc.size]
      exact htakes

/-- In every state of every run that is well formed, `Mem_Alloc` of no more
than is left succeeds exactly if a block suits. -/
theorem alloc_succeeds_iff {starts : Env → Int → Prop} {g : Config}
    (h : Reach (client starts) Anything g) (hwf : WellFormed g.heap L)
    (hle : size ≤ g.heap.remainingSize) :
    Succeeds g.heap size ↔ Suits g.heap L (roundTo size BLOCK_SIZE) :=
  hwf.succeeds_iff (reach_readable h) (reach_low h) hle

/-- The theorem with two FREE blocks of 160 bytes between and behind allocated
ones: 152 bytes are found, and 160 are not. -/
theorem alloc_succeeds_iff_several : ∃ c L,
    Reach (client fun _ _ => True) Anything c ∧ WellFormed c.heap L
      ∧ L.map Lib.Cell.listed = [false, false, true, true]
      ∧ Succeeds c.heap 152 ∧ Suits c.heap L (roundTo 152 BLOCK_SIZE)
      ∧ ¬Succeeds c.heap 160 ∧ ¬Suits c.heap L (roundTo 160 BLOCK_SIZE) := by
  let c := (Lib.run (client fun _ _ => True) [.alloc 9 40, .alloc 9 200,
    .free 9 65688 0, .alloc 9 8] (opened 400)).get (by decide +kernel)
  let L : List Block := [⟨65584, NULL, false⟩, ⟨65656, NULL, false⟩,
    ⟨65696, 65888, true⟩, ⟨65888, NULL, true⟩]
  have hreach : Reach (client fun _ _ => True) Anything c :=
    Lib.reach_of_run _
      (start_opened trivial (by decide +kernel) (by decide +kernel))
      (Option.some_get _).symm
  have hwf : WellFormed c.heap L := by decide +kernel
  have hfound : Succeeds c.heap 152 := by
    let r := (memAlloc 9 c.heap 152).get (by decide +kernel)
    exact ⟨9, r.1, r.2, (Option.some_get _).symm, by decide +kernel⟩
  have hfull : ¬Suits c.heap L (roundTo 160 BLOCK_SIZE) := by
    rintro (⟨k, -, -, -, hfast, -⟩ | ⟨-, A, t, B, hL, -, hlt, -⟩)
    · exact hfast.2.1 (by decide +kernel)
    · -- no block has more than 160 bytes
      have hall : ∀ i < 4, i32 (blockSize c.heap.lastBlockSize
          ((L[i]?).getD ⟨0, 0, false⟩) (L.drop (i + 1))) ≤ 160 := by
        decide +kernel
      have hlength : A.length < 4 := by
        have hlen := congrArg List.length hL
        rw [List.length_append, List.length_cons] at hlen
        exact Nat.lt_of_lt_of_le (Nat.lt_add_of_pos_right (Nat.succ_pos _))
          (Nat.le_of_eq hlen.symm)
      have hle := hall A.length hlength
      rw [hL, List.getElem?_append_right (Nat.le_refl _), Nat.sub_self,
        ← List.drop_drop, List.drop_left] at hle
      have hround : roundTo 160 BLOCK_SIZE = 160 := by decide +kernel
      rw [hround] at hlt
      exact absurd hlt (Int.not_lt.mpr hle)
  refine ⟨c, L, hreach, hwf, rfl, hfound, ?_, fun hout => ?_, hfull⟩
  · exact (alloc_succeeds_iff hreach hwf (by decide +kernel)).mp hfound
  · exact hfull ((alloc_succeeds_iff hreach hwf (by decide +kernel)).mp hout)

/-- A block that fits exactly is passed over. -/
theorem exact_fit_refused : ¬∀ (g : Config) (L : List Block) (size : Int),
    Reach (client fun _ _ => True) Anything g → WellFormed g.heap L →
    1 ≤ size → size ≤ g.heap.remainingSize →
    (∃ A t B, L = A ++ t :: B ∧ t.listed = true
      ∧ (size + 7) / 8 * 8 ≤ blockSize g.heap.lastBlockSize t B) →
    Succeeds g.heap size := by
  intro hall
  have hreach : Reach (client fun _ _ => True) Anything (opened 8) :=
    ⟨_, start_opened trivial (by decide +kernel) (by decide +kernel), .refl _⟩
  have hwf : WellFormed (opened 8).heap [⟨65584, NULL, true⟩] := by
    decide +kernel
  have hout := hall (opened 8) _ 8 hreach hwf (by decide) (by decide +kernel)
    ⟨[], ⟨65584, NULL, true⟩, [], rfl, rfl, by decide +kernel⟩
  rw [hwf.succeeds_iff (reach_readable hreach) (reach_low hreach)
    (by decide +kernel)] at hout
  rcases hout with ⟨k, -, -, -, hfast, -⟩ | ⟨-, A, t, B, heq, -, hgt, -⟩
  · exact hfast.1 (by decide +kernel)
  · obtain ⟨rfl, rfl, rfl⟩ := hwf.chain.split_unique (A := [])
      (t := ⟨65584, NULL, true⟩) (B := []) heq (by
        have hmem : t ∈ [(⟨65584, NULL, true⟩ : Block)] := by
          rw [heq]
          simp
        rw [List.mem_singleton.mp hmem])
    exact absurd hgt (by decide +kernel)

end OperatingSystem.Heap
