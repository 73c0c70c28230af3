/-
The block chain as a list of blocks.

`Chain m L` says that memory `m` holds the headers of the blocks in `L`,
linked both ways, in address order and at least 40 bytes apart: room for a
header and eight bytes. A block is a `Lib.Cell`; it is `listed` when its
status is FREE, and `link` is its `next_free`.

The edits the allocator makes to headers are edits of the list: a new
`next_free` or status (`Chain.setLink`, `Chain.setStatus`), a header cut in
behind a block (`Chain.insert`) or taken out (`Row.linkTo`). What the
program reads is read off the list (`Chain.next`, `Chain.prev`,
`getBlockSize_eq`, `nearestFree_eq`).
-/
import OperatingSystem.Heap.Row
import OperatingSystem.Lib.Threaded
import Mathlib.Data.List.Induction

namespace OperatingSystem.Heap

open Lib (Words Linked i32 withLow firstListed lastListed relink NoneListed)

/-- A block of the chain: its header's address, its `next_free`, and
whether its status is FREE. -/
abbrev Block := Lib.Cell Int

variable {m m' : Words} {s : State} {L A B : List Block} {t x n b : Block}
  {v : Int}

/-- The `status` of a block. -/
def statusOf (b : Block) : Int := if b.listed then FREE else ALLOCATED

/-- The first block's address, or `NULL`. -/
def firstAddr (B : List Block) : Int := (B.map Lib.Cell.addr).headD NULL

/-- The last block's address, or `NULL`. -/
def lastAddr (A : List Block) : Int := (A.map Lib.Cell.addr).getLastD NULL

/-- The header of `b` lies in `m` and has these fields. -/
structure Holds (m : Words) (b : Block) : Prop where
  pos : 0 < b.addr
  low : m.base ≤ b.addr
  high : b.addr + 32 ≤ m.base + m.size
  aligned : b.addr % 8 = 0
  link : m.word (b.addr + 16) = b.link
  status : i32 (m.word (b.addr + 24)) = statusOf b

/-- Memory `m` holds the block chain `L`. -/
structure Chain (m : Words) (L : List Block) : Prop where
  linked : Linked m.word (fun a => m.word (a + 8)) NULL (L.map Lib.Cell.addr)
    NULL
  holds : ∀ b ∈ L, Holds m b
  spaced : (L.map Lib.Cell.addr).Pairwise fun a b => a + 40 ≤ b

/-- The headers of a chain's blocks. -/
def headers (L : List Block) : List Header :=
  L.map fun b => ⟨b.addr, statusOf b⟩

/-- A chain is a row. -/
theorem Chain.row (hc : Chain m L) : Row m (headers L) where
  linked := by
    rw [headers, List.map_map]
    exact hc.linked
  held := by
    intro h hh
    obtain ⟨b, hb, rfl⟩ := List.mem_map.mp hh
    have hb := hc.holds b hb
    exact ⟨hb.pos, hb.low, hb.high, hb.aligned, hb.status⟩
  apart := by
    have hspaced := List.pairwise_map.mp hc.spaced
    refine List.pairwise_map.mpr (hspaced.imp fun hab => ?_)
    dsimp only [BLOCK_HEADER]
    omega

/-- A row is a chain where there is room for eight bytes behind each header
and `next_free` is as it should be. -/
theorem Row.chain (hr : Row m (headers L))
    (hspaced : (L.map Lib.Cell.addr).Pairwise fun a b => a + 40 ≤ b)
    (hlink : ∀ b ∈ L, m.word (b.addr + 16) = b.link) : Chain m L where
  linked := by
    have hl := hr.linked
    rw [headers, List.map_map] at hl
    exact hl
  holds := by
    intro b hb
    have hh := hr.held _ (List.mem_map_of_mem hb)
    exact ⟨hh.pos, hh.low, hh.high, hh.aligned, hlink b hb, hh.status⟩
  spaced := hspaced

-- ================================================================ reading

@[simp] theorem firstAddr_nil : firstAddr [] = NULL := rfl

@[simp] theorem firstAddr_cons : firstAddr (b :: B) = b.addr := rfl

@[simp] theorem lastAddr_nil : lastAddr [] = NULL := rfl

@[simp] theorem lastAddr_concat : lastAddr (A ++ [b]) = b.addr := by
  simp [lastAddr]

theorem Holds.ne_null (h : Holds m b) : b.addr ≠ NULL := by
  have := h.pos
  unfold NULL
  omega

theorem Holds.mapped (h : Holds m b) {k : Int} (hlo : 0 ≤ k) (hhi : k ≤ 24)
    (hk : k % 8 = 0) : m.Mapped (b.addr + k) := by
  have h₁ := h.low
  have h₂ := h.high
  have h₃ := h.aligned
  exact ⟨by omega, by omega, by omega⟩

theorem Chain.mem (h : Chain m (A ++ t :: B)) : Holds m t :=
  h.holds t (List.mem_append_right _ List.mem_cons_self)

theorem Chain.before (h : Chain m (A ++ t :: B)) :
    ∀ a ∈ A, a.addr + 40 ≤ t.addr := fun a ha =>
  (List.pairwise_append.mp (List.pairwise_map.mp h.spaced)).2.2 a ha t
    List.mem_cons_self

theorem Chain.behind (h : Chain m (A ++ t :: B)) :
    ∀ b ∈ B, t.addr + 40 ≤ b.addr := fun b hb =>
  (List.pairwise_cons.mp
    (List.pairwise_append.mp (List.pairwise_map.mp h.spaced)).2.1).1 b hb

/-- The block `t` counted to what is in front. -/
theorem Chain.shift (h : Chain m (A ++ t :: B)) :
    Chain m ((A ++ [t]) ++ B) := by
  rwa [List.append_assoc, List.singleton_append]

/-- A chain seen from a block in front of `B`. -/
theorem Chain.regroup {D : List Block} (h : Chain m ((A ++ t :: D) ++ B)) :
    Chain m (A ++ t :: (D ++ B)) := by
  rwa [List.append_assoc, List.cons_append] at h

/-- What ends in front of the next header ends in front of all. -/
theorem Chain.forall_behind {a : Int} (h : Chain m (A ++ t :: B))
    (hfirst : ∀ b ∈ B.head?, a ≤ b.addr) : ∀ b ∈ B, a ≤ b.addr := by
  cases B with
  | nil => exact nofun
  | cons c rest =>
      have hc := hfirst c rfl
      intro b hb
      rcases List.mem_cons.mp hb with rfl | hb
      · exact hc
      · have := h.shift.behind b hb
        omega

/-- The chain ends where its first address is `NULL`. -/
theorem Chain.firstAddr_eq_null (h : Chain m (A ++ t :: B)) :
    firstAddr B = NULL ↔ B = [] := by
  cases B with
  | nil => simp
  | cons b rest =>
      have hb : Holds m b := h.holds b (by simp)
      exact ⟨fun hnull => absurd hnull hb.ne_null, nofun⟩

/-- Two blocks of a chain at one address are one. -/
theorem Chain.eq_of_addr (h : Chain m L) (hb : b ∈ L) (hx : x ∈ L)
    (ha : b.addr = x.addr) : b = x := by
  obtain ⟨A, B, rfl⟩ := List.append_of_mem hb
  rcases List.mem_append.mp hx with hx | hx
  · have := h.before x hx
    omega
  · rcases List.mem_cons.mp hx with rfl | hx
    · rfl
    · have := h.behind x hx
      omega

theorem Chain.linked_at (h : Chain m (A ++ t :: B)) :
    m.word t.addr = firstAddr B ∧ m.word (t.addr + 8) = lastAddr A := by
  have hl := h.linked
  rw [List.map_append, List.map_cons, Lib.linked_split] at hl
  exact ⟨hl.2.1, hl.2.2.1⟩

theorem State.next_eq (h : Chain s.mem (A ++ t :: B)) :
    s.next t.addr = some (firstAddr B) := by
  have hm := h.mem.mapped (k := 0) (by decide) (by decide) (by decide)
  rw [Int.add_zero] at hm
  rw [State.next, Words.load_of_mapped hm, h.linked_at.1]

theorem State.prev_eq (h : Chain s.mem (A ++ t :: B)) :
    s.prev t.addr = some (lastAddr A) := by
  have hm := h.mem.mapped (k := 8) (by decide) (by decide) (by decide)
  rw [State.prev, Words.load_of_mapped hm, h.linked_at.2]

theorem State.nextFree_eq (h : Holds s.mem t) :
    s.nextFree t.addr = some t.link := by
  have hm := h.mapped (k := 16) (by decide) (by decide) (by decide)
  rw [State.nextFree, Words.load_of_mapped hm, h.link]

theorem State.status_eq (h : Holds s.mem t) :
    s.status t.addr = some (statusOf t) := by
  have hm := h.mapped (k := 24) (by decide) (by decide) (by decide)
  rw [State.status, Words.load_of_mapped hm, Option.map_some, h.status]

/-- A block's size: up to the next header, or the recorded size. -/
def blockSize (lastBlockSize : Int) (t : Block) (B : List Block) : Int :=
  match B with
  | [] => lastBlockSize
  | x :: _ => x.addr - (t.addr + 32)

theorem getBlockSize_eq (h : Chain s.mem (A ++ t :: B)) :
    getBlockSize s t.addr = some (blockSize s.lastBlockSize t B) := by
  rw [getBlockSize, if_neg h.mem.ne_null, State.next_eq h,
    Option.bind_eq_bind, Option.bind_some]
  cases B with
  | nil => exact if_neg (not_not.mpr rfl)
  | cons x rest =>
      have hx : Holds s.mem x := h.holds x (by simp)
      exact if_pos hx.ne_null

/-- The walk back from the end of `A` finds the last FREE block there, or
is not done yet. -/
theorem nearestFree_eq (fuel : Nat) (h : Chain s.mem (A ++ B)) :
    nearestFree s fuel (lastAddr A) = some (lastListed NULL A)
      ∨ nearestFree s fuel (lastAddr A) = none ∧ fuel ≤ A.length := by
  induction A using List.reverseRecOn generalizing fuel B with
  | nil =>
      cases fuel with
      | zero => exact .inr ⟨rfl, Nat.le_refl 0⟩
      | succ fuel => exact .inl (if_pos rfl)
  | append_singleton A t ih =>
      rw [List.append_assoc, List.singleton_append] at h
      cases fuel with
      | zero => exact .inr ⟨rfl, Nat.zero_le _⟩
      | succ fuel =>
          rw [lastAddr_concat, nearestFree, if_neg h.mem.ne_null,
            State.status_eq h.mem, Option.bind_eq_bind, Option.bind_some]
          cases ht : t.listed with
          | true =>
              rw [Lib.lastListed_append, Lib.lastListed, if_pos ht]
              have hfree : statusOf t = FREE := by rw [statusOf, if_pos ht]
              exact .inl (if_neg (not_not.mpr hfree))
          | false =>
              have halloc : statusOf t ≠ FREE := by
                rw [statusOf, ht]
                decide
              rw [Lib.lastListed_append, Lib.lastListed, ht,
                if_neg Bool.false_ne_true, if_pos halloc, State.prev_eq h,
                Option.bind_some, List.length_append]
              rcases ih fuel h with hrun | ⟨hrun, hle⟩
              · exact .inl hrun
              · exact .inr ⟨hrun, Nat.succ_le_succ hle⟩

/-- A header of the block chain, as a walk from `head` along `next` comes to
it. -/
inductive OnChain (s : State) : (p : Int) → Prop
  | head : s.head ≠ NULL → OnChain s s.head
  | next {p q : Int} : OnChain s p → s.next p = some q → q ≠ NULL →
      OnChain s q

/-- The walk stays among headers that lead to each other. -/
theorem OnChain.mem {l : List Int} {p : Int} (hhead : s.head ∈ l)
    (hnext : ∀ p ∈ l, ∀ q ∈ s.next p, q = NULL ∨ q ∈ l) (h : OnChain s p) :
    p ∈ l := by
  induction h with
  | head => exact hhead
  | next _ hq hne ih => exact (hnext _ ih _ hq).resolve_left hne

/-- The walk visits the blocks of the chain and no others. -/
theorem onChain_iff (h : Chain s.mem L) (hhead : s.head = firstAddr L)
    {p : Int} : OnChain s p ↔ ∃ b ∈ L, b.addr = p := by
  have hfirst : ∀ {B : List Block}, firstAddr B ≠ NULL →
      ∃ b ∈ B, b.addr = firstAddr B := by
    intro B hne
    cases B with
    | nil => exact absurd rfl hne
    | cons b rest => exact ⟨b, List.mem_cons_self, rfl⟩
  constructor
  · intro hon
    induction hon with
    | head hne =>
        rw [hhead] at hne ⊢
        exact hfirst hne
    | next hon hnext hne ih =>
        obtain ⟨t, ht, rfl⟩ := ih
        obtain ⟨A, B, rfl⟩ := List.append_of_mem ht
        rw [State.next_eq h] at hnext
        obtain rfl := Option.some.inj hnext
        obtain ⟨b, hb, heq⟩ := hfirst hne
        exact ⟨b, by simp [hb], heq⟩
  · intro hmem
    obtain ⟨b, hb, rfl⟩ := hmem
    obtain ⟨A, B, rfl⟩ := List.append_of_mem hb
    clear hb
    induction A using List.reverseRecOn generalizing b B with
    | nil =>
        have hstart : s.head = b.addr := hhead
        rw [← hstart]
        exact .head (hstart ▸ h.mem.ne_null)
    | append_singleton A a ih =>
        rw [List.append_assoc, List.singleton_append] at h hhead
        have hb : Holds s.mem b := h.holds b (by simp)
        exact .next (ih a (b :: B) h hhead) (State.next_eq h) hb.ne_null

-- ================================================================= edits

/-- A header is kept where its last two words are. -/
theorem Holds.congr (h : Holds m b) (hbase : m'.base = m.base)
    (hsize : m'.size = m.size)
    (hlink : m'.word (b.addr + 16) = m.word (b.addr + 16))
    (hstatus : m'.word (b.addr + 24) = m.word (b.addr + 24)) :
    Holds m' b where
  pos := h.pos
  low := hbase ▸ h.low
  high := by rw [hbase, hsize]; exact h.high
  aligned := h.aligned
  link := hlink.trans h.link
  status := by rw [hstatus]; exact h.status

/-- A chain is where its headers are. -/
theorem Chain.congr (h : Chain m L) (hbase : m'.base = m.base)
    (hsize : m'.size = m.size)
    (hword : ∀ b ∈ L, ∀ y, b.addr ≤ y → y < b.addr + 32 →
      m'.word y = m.word y) : Chain m' L where
  linked := h.linked.congr
    (fun a ha => by
      obtain ⟨b, hb, rfl⟩ := List.mem_map.mp ha
      exact hword b hb _ (by omega) (by omega))
    (fun a ha => by
      obtain ⟨b, hb, rfl⟩ := List.mem_map.mp ha
      exact hword b hb _ (by omega) (by omega))
  holds := fun b hb => (h.holds b hb).congr hbase hsize
    (hword b hb _ (by omega) (by omega)) (hword b hb _ (by omega) (by omega))
  spaced := h.spaced

/-- A write to the last two words of a header leaves the chain linked and
the other headers as they are. -/
theorem Chain.put (h : Chain m (A ++ t :: B)) {k : Int} (hlo : 16 ≤ k)
    (hhi : k ≤ 24) {t' : Block} (haddr : t'.addr = t.addr)
    (ht' : Holds (m.put (t.addr + k) v) t') :
    Chain (m.put (t.addr + k) v) (A ++ t' :: B) := by
  have hA := h.before
  have hB := h.behind
  have hother : ∀ b ∈ A ++ B, ∀ y, b.addr ≤ y → y < b.addr + 32 →
      (m.put (t.addr + k) v).word y = m.word y := by
    intro b hb y hy hy'
    refine Words.put_word_ne ?_
    rcases List.mem_append.mp hb with hb | hb
    · have := hA b hb
      omega
    · have := hB b hb
      omega
  have haddrs : (A ++ t' :: B).map Lib.Cell.addr
      = (A ++ t :: B).map Lib.Cell.addr := by
    rw [List.map_append, List.map_append, List.map_cons, List.map_cons, haddr]
  have hlinks : ∀ a ∈ (A ++ t :: B).map Lib.Cell.addr, ∀ y, a ≤ y →
      y < a + 16 → (m.put (t.addr + k) v).word y = m.word y := by
    intro a ha y hy hy'
    obtain ⟨b, hb, rfl⟩ := List.mem_map.mp ha
    rcases List.mem_append.mp hb with hb | hb
    · exact hother b (List.mem_append_left _ hb) y hy (by omega)
    · rcases List.mem_cons.mp hb with rfl | hb
      · exact Words.put_word_ne (by omega)
      · exact hother b (List.mem_append_right _ hb) y hy (by omega)
  constructor
  case linked =>
    rw [haddrs]
    exact h.linked.congr (fun a ha => hlinks a ha a (by omega) (by omega))
      (fun a ha => hlinks a ha (a + 8) (by omega) (by omega))
  case holds =>
    intro b hb
    rcases List.mem_append.mp hb with hb' | hb'
    · exact (h.holds b (List.mem_append_left _ hb')).congr rfl rfl
        (hother b (List.mem_append_left _ hb') _ (by omega) (by omega))
        (hother b (List.mem_append_left _ hb') _ (by omega) (by omega))
    · rcases List.mem_cons.mp hb' with rfl | hb''
      · exact ht'
      · exact (h.holds b (by simp [hb''])).congr rfl rfl
          (hother b (List.mem_append_right _ hb'') _ (by omega) (by omega))
          (hother b (List.mem_append_right _ hb'') _ (by omega) (by omega))
  case spaced =>
    rw [haddrs]
    exact h.spaced

/-- A new `next_free`. -/
theorem Chain.setLink (h : Chain m (A ++ t :: B)) (v : Int) :
    Chain (m.put (t.addr + 16) v) (A ++ { t with link := v } :: B) :=
  h.put (by decide) (by decide) rfl {
    pos := h.mem.pos
    low := h.mem.low
    high := h.mem.high
    aligned := h.mem.aligned
    link := Words.put_word_self
    status := by
      rw [Words.put_word_ne (by dsimp only; omega)]
      exact h.mem.status }

/-- A new status. -/
theorem Chain.setStatus (h : Chain m (A ++ t :: B)) (free : Bool) :
    Chain (m.put (t.addr + 24) (withLow (m.word (t.addr + 24))
        (if free then FREE else ALLOCATED)))
      (A ++ { t with listed := free } :: B) :=
  h.put (by decide) (by decide) rfl {
    pos := h.mem.pos
    low := h.mem.low
    high := h.mem.high
    aligned := h.mem.aligned
    link := by
      rw [Words.put_word_ne (by dsimp only; omega)]
      exact h.mem.link
    status := by
      rw [Words.put_word_self, Lib.i32_withLow]
      · rfl
      · cases free <;> decide
      · cases free <;> decide }

/-- Where the blocks behind `t` keep what a change of the first one's `prev`
leaves alone. -/
theorem Chain.behind_kept (h : Chain m (A ++ t :: B)) (m' : Words)
    (hkeep : ∀ b ∈ B, ∀ y, b.addr ≤ y → y < b.addr + 32 →
      (∀ c ∈ B.head?, y ≠ c.addr + 8) → m'.word y = m.word y) :
    (∀ b ∈ B, m'.word b.addr = m.word b.addr
        ∧ m'.word (b.addr + 16) = m.word (b.addr + 16)
        ∧ m'.word (b.addr + 24) = m.word (b.addr + 24))
      ∧ ∀ b ∈ B.tail, m'.word (b.addr + 8) = m.word (b.addr + 8) := by
  cases B with
  | nil => exact ⟨nofun, nofun⟩
  | cons c rest =>
      have hrest := h.shift.behind
      have hge : ∀ b ∈ c :: rest, b = c ∨ c.addr + 40 ≤ b.addr := by
        intro b hb
        exact (List.mem_cons.mp hb).imp_right (hrest b)
      have hhead : ∀ d ∈ (c :: rest).head?, d = c := by
        intro d hd
        cases hd
        rfl
      refine ⟨fun b hb => ⟨?_, ?_, ?_⟩, fun b hb => ?_⟩
      · refine hkeep b hb _ (by omega) (by omega) fun d hd => ?_
        rw [hhead d hd]
        rcases hge b hb with rfl | hle <;> omega
      · refine hkeep b hb _ (by omega) (by omega) fun d hd => ?_
        rw [hhead d hd]
        rcases hge b hb with rfl | hle <;> omega
      · refine hkeep b hb _ (by omega) (by omega) fun d hd => ?_
        rw [hhead d hd]
        rcases hge b hb with rfl | hle <;> omega
      · refine hkeep b (List.mem_cons_of_mem _ hb) _ (by omega) (by omega)
          fun d hd => ?_
        rw [hhead d hd]
        have := hrest b hb
        omega

/-- A header cut in behind `t`: memory changes in the new header, in `next`
of `t` and in `prev` of the block that follows. -/
theorem Chain.insert (h : Chain m (A ++ t :: B)) (hbase : m'.base = m.base)
    (hsize : m'.size = m.size) (hlo : t.addr + 40 ≤ n.addr)
    (hhi : ∀ b ∈ B, n.addr + 40 ≤ b.addr) (hn : Holds m' n)
    (hnext : m'.word n.addr = firstAddr B)
    (hprev : m'.word (n.addr + 8) = t.addr) (ht : m'.word t.addr = n.addr)
    (hfirst : ∀ b ∈ B.head?, m'.word (b.addr + 8) = n.addr)
    (hout : ∀ y, y ≠ t.addr → (y < n.addr ∨ n.addr + 32 ≤ y) →
      (∀ b ∈ B.head?, y ≠ b.addr + 8) → m'.word y = m.word y) :
    Chain m' (A ++ t :: n :: B) := by
  have hA := h.before
  have hfirst_lt : ∀ y, y < n.addr → ∀ b ∈ B.head?, y ≠ b.addr + 8 :=
    fun y hy b hb => by
      have := hhi b (List.mem_of_mem_head? hb)
      omega
  have hbefore : ∀ a ∈ A, ∀ y, a.addr ≤ y → y < a.addr + 32 →
      m'.word y = m.word y := by
    intro a ha y hy hy'
    have := hA a ha
    exact hout y (by omega) (.inl (by omega)) (hfirst_lt y (by omega))
  obtain ⟨hB, hB'⟩ := h.behind_kept m' fun b hb y hy hy' hne => by
    have := hhi b hb
    exact hout y (by omega) (.inr (by omega)) hne
  have hkept : ∀ y, t.addr < y → y < t.addr + 32 → m'.word y = m.word y :=
    fun y hy hy' => hout y (by omega) (.inl (by omega))
      (hfirst_lt y (by omega))
  constructor
  case linked =>
    have hl := h.linked
    rw [List.map_append, List.map_cons] at hl
    rw [List.map_append, List.map_cons, List.map_cons]
    refine hl.insert ?_ ?_ ht (hkept _ (by omega) (by omega)) hnext hprev
      ?_ ?_ ?_
    · exact List.forall_mem_map.mpr fun a ha =>
        hbefore a ha _ (by omega) (by omega)
    · exact List.forall_mem_map.mpr fun a ha =>
        hbefore a ha _ (by omega) (by omega)
    · exact List.forall_mem_map.mpr fun b hb => (hB b hb).1
    · rw [← List.map_tail]
      exact List.forall_mem_map.mpr hB'
    · intro a ha
      rw [List.head?_map] at ha
      obtain ⟨b, hb, rfl⟩ := Option.map_eq_some_iff.mp ha
      exact hfirst b hb
  case holds =>
    intro b hb
    rcases List.mem_append.mp hb with hb | hb
    · exact (h.holds b (List.mem_append_left _ hb)).congr hbase hsize
        (hbefore b hb _ (by omega) (by omega))
        (hbefore b hb _ (by omega) (by omega))
    · rcases List.mem_cons.mp hb with rfl | hb
      · exact h.mem.congr hbase hsize (hkept _ (by omega) (by omega))
          (hkept _ (by omega) (by omega))
      · rcases List.mem_cons.mp hb with rfl | hb
        · exact hn
        · exact (h.holds b (by simp [hb])).congr hbase hsize (hB b hb).2.1
            (hB b hb).2.2
  case spaced =>
    have hs := h.spaced
    rw [List.pairwise_map] at hs ⊢
    obtain ⟨hs₁, hs₂, hs₃⟩ := List.pairwise_append.mp hs
    obtain ⟨hs₄, hs₅⟩ := List.pairwise_cons.mp hs₂
    refine List.pairwise_append.mpr ⟨hs₁, List.pairwise_cons.mpr ⟨?_,
      List.pairwise_cons.mpr ⟨hhi, hs₅⟩⟩, ?_⟩
    · intro b hb
      rcases List.mem_cons.mp hb with rfl | hb
      · exact hlo
      · exact hs₄ b hb
    · intro a ha b hb
      have hat := hA a ha
      rcases List.mem_cons.mp hb with rfl | hb
      · exact hat
      · rcases List.mem_cons.mp hb with rfl | hb
        · omega
        · have := hhi b hb
          omega

end OperatingSystem.Heap
