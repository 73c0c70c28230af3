/-
A free without coalescing inserts.

`Mem_Free(ptr, 0)` walks the block chain back from the block to the nearest
FREE one and puts the block behind that on the free list. The list has the
order of the chain, so what the walk finds is the block's predecessor there,
and what that leads to is the next FREE block behind (`WellFormed.leads`).
Only the block's own status and `next_free` and the predecessor's
`next_free` are written.
-/
import OperatingSystem.Heap.Region
import OperatingSystem.Heap.Rejoined

namespace OperatingSystem.Heap

open Lib (Words firstListed lastListed lastLink relink Unbroken)

variable {s s' s₁ : State} {A B L L' : List Block} {t b : Block}
  {fuel : Nat} {p : Int}

-- ====================================================== headers compared

/-- The chain of `s'` is that of `s` with `t` FREE, and `t` is on the free
list between the FREE blocks in front of it and those behind. All links
along the chain are as they were, and so are the other blocks' statuses and
their links along the list, but for the predecessor's. -/
structure Inserted (s s' : State) (A : List Block) (t : Block)
    (B : List Block) : Prop where
  wellFormed : ∃ L', WellFormed s' L'
    ∧ shapes L' = shapes A ++ (t.addr, true) :: shapes B
    ∧ frees L' = frees A ++ t.addr :: frees B
  chain : ∀ b ∈ A ++ t :: B, s'.next b.addr = s.next b.addr
    ∧ s'.prev b.addr = s.prev b.addr
  others : ∀ b ∈ A ++ B, s'.status b.addr = s.status b.addr
    ∧ (b.addr ≠ lastListed NULL A → s'.nextFree b.addr = s.nextFree b.addr)

/-- Where the headers are says how they are linked along the chain. -/
theorem links_of_addrs (h : Chain s.mem L) (h' : Chain s'.mem L')
    (haddrs : L'.map Lib.Cell.addr = L.map Lib.Cell.addr) (hb : b ∈ L) :
    s'.next b.addr = s.next b.addr ∧ s'.prev b.addr = s.prev b.addr := by
  obtain ⟨A, B, rfl⟩ := List.append_of_mem hb
  rw [List.map_append, List.map_cons] at haddrs
  obtain ⟨A', R, rfl, hA, hR⟩ := List.map_eq_append_iff.mp haddrs
  obtain ⟨b', B', rfl, hb', hB⟩ := List.map_eq_cons_iff.mp hR
  rw [State.next_eq h, State.prev_eq h, ← hb', State.next_eq h',
    State.prev_eq h', firstAddr_eq_of_addrs hB, lastAddr, lastAddr, hA]
  exact ⟨rfl, rfl⟩

/-- A header that holds the same flags in both states. -/
theorem Holds.same_flags {b' : Block} (h : Holds s.mem b)
    (h' : Holds s'.mem b') (haddr : b'.addr = b.addr)
    (hlisted : b'.listed = b.listed) :
    s'.status b.addr = s.status b.addr
      ∧ (b'.link = b.link → s'.nextFree b.addr = s.nextFree b.addr) := by
  rw [State.status_eq h, State.nextFree_eq h, ← haddr, State.status_eq h',
    State.nextFree_eq h']
  unfold statusOf
  rw [hlisted]
  exact ⟨rfl, fun hlink => congrArg some hlink⟩

-- ======================================================= the two writes

/-- The heap once `t` is FREE and the list leads to it and on. -/
theorem WellFormed.insert (h : WellFormed s (A ++ t :: B))
    (hglobal : s'.globalHead = s.globalHead) (hhead : s'.head = s.head)
    (hchain : Chain s'.mem
      (relink t.addr A ++ ⟨t.addr, firstListed NULL B, true⟩ :: B))
    (hfree : s'.headFree
      = if A.any Lib.Cell.listed then s.headFree else t.addr) :
    WellFormed s'
      (relink t.addr A ++ ⟨t.addr, firstListed NULL B, true⟩ :: B) := by
  obtain ⟨hfront, -, hbehind⟩ := Lib.unbroken_append.mp h.unbroken
  constructor
  case ready =>
    unfold State.ready
    rw [hglobal]
    exact h.ready
  case chain => exact hchain
  case head =>
    rw [hhead, h.head]
    exact firstAddr_eq_of_addrs (by simp [addrs_relink])
  case unbroken =>
    refine Lib.unbroken_append.mpr ⟨?_, rfl, hbehind⟩
    rw [firstListed, if_pos rfl]
    exact hfront.relink
  case headFree =>
    rw [hfree, Lib.firstListed_append, Lib.firstListed_relink, firstListed,
      if_pos rfl]
    cases hany : A.any Lib.Cell.listed with
    | true =>
        rw [if_pos rfl, h.headFree, Lib.firstListed_append]
        exact Lib.firstListed_of_any hany
    | false =>
        rw [if_neg Bool.false_ne_true]
        exact (Lib.firstListed_none (Lib.noneListed_iff.mpr hany)).symm

theorem WellFormed.inserted (h : WellFormed s (A ++ t :: B))
    (h' : WellFormed s'
      (relink t.addr A ++ ⟨t.addr, firstListed NULL B, true⟩ :: B)) :
    Inserted s s' A t B where
  wellFormed := by
    refine ⟨_, h', ?_, ?_⟩
    · rw [shapes_append, shapes_relink, shapes_cons]
    · rw [frees_append, frees_cons, if_pos rfl,
        frees_congr (shapes_relink t.addr A)]
      rfl
  chain b hb := by
    refine links_of_addrs h.chain h'.chain ?_ hb
    rw [List.map_append, addrs_relink, List.map_append]
    rfl
  others b hb := by
    have hholds : Holds s.mem b := h.chain.holds b (by
      rw [List.mem_append] at hb ⊢
      exact hb.imp_right (List.mem_cons_of_mem t))
    rcases List.mem_append.mp hb with hA | hB
    · obtain ⟨b', hb', haddr, hlisted, hlink⟩ :=
        Lib.exists_relinked NULL t.addr hA
      obtain ⟨hstatus, hfree⟩ := hholds.same_flags
        (h'.chain.holds b' (List.mem_append_left _ hb')) haddr hlisted
      exact ⟨hstatus, fun hne => hfree (hlink hne)⟩
    · obtain ⟨hstatus, hfree⟩ := hholds.same_flags
        (h'.chain.holds b (by simp [hB])) rfl rfl
      exact ⟨hstatus, fun _ => hfree rfl⟩

/-- `Mem_Free` from the ledger lines on, without coalescing. -/
theorem WellFormed.freeBlock_inserts (h : WellFormed s (A ++ t :: B))
    (ht : t.listed = false) (hs : CachedReadable s) (hfuel : A.length < fuel)
    (hsize : blockSize s.lastBlockSize t B ≠ RETURN_WITH_ERROR) :
    ∃ s', freeBlock fuel s t.addr 0 = some (RETURN_SUCCESS, s')
      ∧ Inserted s s' A t B := by
  obtain ⟨s₁, hgive, hs₁, -, -⟩ := giveBack_eq h.chain ht
    (blockSize s.lastBlockSize t B)
  have hc₁ : Chain s₁.mem (A ++ t :: B) := by
    rw [hs₁.mem]
    exact h.chain
  obtain ⟨m₂, hstatus, hed₂⟩ := setStatus_eq hc₁ true
  rw [if_pos rfl] at hstatus
  rcases enlist_eq fuel (s := { s₁ with mem := m₂ }) hed₂.chain true with
    ⟨-, hle⟩ | ⟨m₃, hlist, hed₃⟩
  · exact absurd hfuel (Nat.not_lt.mpr hle)
  dsimp only at hlist hed₃
  rw [if_pos rfl, hs₁.headFree, h.leads ht] at hed₃
  have hmapped : ∀ {p}, Readable s.mem p → Readable m₃ p := by
    refine (Readable.congr ?_ ?_).mpr
    · rw [hed₃.base, hed₂.base, hs₁.mem]
    · rw [hed₃.size, hed₂.size, hs₁.mem]
  have hp := h.chain.mem.mapped (k := 0) (by decide) (by decide) (by decide)
  rw [Int.add_zero] at hp
  obtain ⟨s', hre⟩ := recache_ends (s := { s₁ with
      mem := m₃
      headFree := if A.any Lib.Cell.listed then s₁.headFree else t.addr })
    (p := t.addr) (by rw [hs₁.largest]; exact hmapped hs.1)
    (by rw [hs₁.secondLargest]; exact hmapped hs.2) (hmapped (.inr hp))
  obtain ⟨l, m, rfl, -⟩ := recache_eq hre
  refine ⟨{ s₁ with
      mem := m₃
      headFree := if A.any Lib.Cell.listed then s₁.headFree else t.addr
      largest := l
      secondLargest := m }, ?_,
    h.inserted (h.insert hs₁.globalHead hs₁.head hed₃.chain ?_)⟩
  · unfold freeBlock
    rw [getBlockSize_eq h.chain]
    simp only [Option.bind_eq_bind, Option.bind_some]
    rw [if_neg hsize, hgive, Option.bind_some, coalesceFreed,
      if_neg (not_not.mpr rfl), Option.bind_some]
    dsimp only
    rw [hstatus, Option.bind_some, decide_true, Bool.true_or, hlist,
      Option.bind_some, hre, Option.bind_some]
  · dsimp only
    rw [hs₁.headFree]

-- =============================================================== the call

/-- `Mem_Free` without coalescing, up to `freeBlock`. -/
theorem memFree_later (hp : p ≠ NULL) :
    memFree fuel s p 0 = (isValidAddr s p).bind fun valid =>
      if valid then
        freeBlock fuel { s with needGlobalCoalesce := TRUE } (getHeader p) 0
      else some (RETURN_WITH_ERROR, { s with needGlobalCoalesce := TRUE }) := by
  have hpending : pendingCoalesce fuel s 0 = some s :=
    if_neg fun hboth => hboth.2 rfl
  rw [memFree, if_neg hp, hpending, Option.bind_eq_bind, Option.bind_some,
    if_pos rfl]
  rfl

theorem getHeader_payload : getHeader (p + BLOCK_HEADER) = p := by
  unfold getHeader
  omega

theorem Holds.payload_ne_null (h : Holds s.mem t) :
    t.addr + BLOCK_HEADER ≠ NULL := by
  have := h.pos
  unfold BLOCK_HEADER NULL
  omega

/-- A block's payload address is inside the region. -/
theorem WellFormed.payload_valid (h : WellFormed s (A ++ t :: B))
    (hr : Region s) : isValidAddr s (t.addr + BLOCK_HEADER) = some true := by
  have hlow := h.chain.mem.low
  have hhigh := h.chain.mem.high
  have hfirst : s.head ≤ t.addr := by
    rw [h.head]
    cases A with
    | nil => exact Int.le_refl _
    | cons a A =>
        have := h.chain.before a List.mem_cons_self
        rw [List.cons_append, firstAddr_cons]
        omega
  have hin : s.head < t.addr + BLOCK_HEADER
      ∧ t.addr + BLOCK_HEADER < s.head + s.actualSize := by
    rw [hr.base, hr.size] at hhigh
    rw [hr.head] at hfirst ⊢
    unfold BLOCK_HEADER GLOBAL_SIZE at *
    omega
  unfold isValidAddr
  rw [if_neg (not_not.mpr h.ready), if_pos hin, getHeader_payload,
    State.status_eq h.chain.mem]
  refine congrArg some (decide_eq_true ?_)
  unfold statusOf
  split
  · exact .inr rfl
  · exact .inl rfl

/-- A block's size is not taken for an error. -/
theorem Chain.size_ne_error {m : Words} (h : Chain m (A ++ t :: B))
    (hlast : 0 ≤ s.lastBlockSize) :
    blockSize s.lastBlockSize t B ≠ RETURN_WITH_ERROR := by
  unfold blockSize RETURN_WITH_ERROR
  cases B with
  | nil =>
      dsimp only
      omega
  | cons x rest =>
      have := h.behind x List.mem_cons_self
      dsimp only
      omega

/-- A free without coalescing puts an ALLOCATED block of a well-formed heap
on the free list at its place and changes no other block. -/
theorem inserts_freed (h : WellFormed s (A ++ t :: B)) (ht : t.listed = false)
    (hr : Region s) (hs : CachedReadable s) (hlast : 0 ≤ s.lastBlockSize)
    (hfuel : A.length < fuel) :
    ∃ s', memFree fuel s (t.addr + BLOCK_HEADER) 0
        = some (RETURN_SUCCESS, s') ∧ Inserted s s' A t B := by
  have hflag : WellFormed { s with needGlobalCoalesce := TRUE }
      (A ++ t :: B) := ⟨h.ready, h.chain, h.head, h.unbroken, h.headFree⟩
  obtain ⟨s', hrun, hins⟩ := hflag.freeBlock_inserts ht hs hfuel
    (h.chain.size_ne_error hlast)
  refine ⟨s', ?_, hins.wellFormed, hins.chain, hins.others⟩
  rw [memFree_later h.chain.mem.payload_ne_null, h.payload_valid hr,
    Option.bind_some, if_pos rfl, getHeader_payload]
  exact hrun

/-- The theorem where the block is between two FREE ones. -/
theorem inserts_freed_between : ∃ c s',
    Lib.run (client fun _ _ => True)
        [.alloc 9 8, .alloc 9 8, .free 9 65616 0] (opened 40) = some c
      ∧ memFree 9 c.heap 65656 0 = some (RETURN_SUCCESS, s')
      ∧ Inserted c.heap s' [⟨65584, 65664, true⟩] ⟨65624, NULL, false⟩
        [⟨65664, NULL, true⟩] := by
  let c := (Lib.run (client fun _ _ => True)
    [.alloc 9 8, .alloc 9 8, .free 9 65616 0] (opened 40)).get
    (by decide +kernel)
  have hfuel : [(⟨65584, 65664, true⟩ : Block)].length < 9 := by decide
  obtain ⟨s', hrun, hins⟩ := inserts_freed (s := c.heap)
    (A := [⟨65584, 65664, true⟩]) (t := ⟨65624, NULL, false⟩)
    (B := [⟨65664, NULL, true⟩]) (by decide +kernel) rfl (by decide +kernel)
    ⟨.inr (by decide +kernel), .inr (by decide +kernel)⟩
    (by decide +kernel) hfuel
  exact ⟨c, s', (Option.some_get _).symm, hrun, hins⟩

end OperatingSystem.Heap
