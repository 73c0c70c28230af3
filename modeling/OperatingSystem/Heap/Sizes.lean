/-
The sizes of the blocks of a chain, and which FREE block is the largest.

A block's size is the gap to the next header, or what is recorded for the
last block. So a call changes the size of the block it cuts or merges and of
no other: in `X ++ p :: Y` the sizes in `X` depend on where `p` is and those
in `Y` on nothing in front (`spans_append`). `IsLargest` is what a cached
pointer is meant to say.
-/
import OperatingSystem.Heap.Alloc

namespace OperatingSystem.Heap

open Lib (Words i64)

variable {s : State} {m : Words} {A A' B B' L L' : List Block} {t t' : Block}
  {last last' : Int} {next : Option Int} {X Y P : List (Int × Bool)}

-- ================================================================== spans

/-- A block: its header's address, whether it is FREE, and its size. -/
structure Span where
  addr : Int
  free : Bool
  size : Int

/-- The bytes from the header at `a` to the next one, or `last`. -/
def gap (last a : Int) : (next : Option Int) → Int
  | none => last
  | some b => b - (a + 32)

/-- The first header's address, or `next`. -/
def nextAddr (next : Option Int) : (P : List (Int × Bool)) → Option Int
  | [] => next
  | p :: _ => some p.1

/-- The blocks of a segment of the chain; `next` is the header behind it. -/
def spans (last : Int) (next : Option Int) : (P : List (Int × Bool)) → List Span
  | [] => []
  | p :: rest =>
      ⟨p.1, p.2, gap last p.1 (nextAddr next rest)⟩ :: spans last next rest

/-- The block at `a` is FREE and no FREE block is larger. -/
def IsLargest (last : Int) (P : List (Int × Bool)) (a : Int) : Prop :=
  ∃ k, ⟨a, true, k⟩ ∈ spans last none P
    ∧ ∀ q ∈ spans last none P, q.free = true → q.size ≤ k

theorem nextAddr_append :
    nextAddr next (X ++ Y) = nextAddr (nextAddr next Y) X := by
  cases X <;> rfl

theorem spans_append : spans last next (X ++ Y)
    = spans last (nextAddr next Y) X ++ spans last next Y := by
  induction X with
  | nil => rfl
  | cons p rest ih =>
      rw [List.cons_append, spans, ih, nextAddr_append]
      rfl

/-- In front of a header the recorded size does not matter. -/
theorem spans_some (last last' b : Int) :
    spans last (some b) X = spans last' (some b) X := by
  induction X with
  | nil => rfl
  | cons p rest ih =>
      rw [spans, spans, ih]
      cases rest <;> rfl

/-- Behind a block it matters to the last block only. -/
theorem spans_behind (last last' : Int) (h : Y ≠ [] → last' = last) :
    spans last' none Y = spans last none Y := by
  cases Y with
  | nil => rfl
  | cons p rest => rw [h (List.cons_ne_nil p rest)]

/-- The blocks in front of one, this block, and the blocks behind. -/
theorem mem_spans {p : Int × Bool} {q : Span} :
    q ∈ spans last none (X ++ p :: Y)
      ↔ q ∈ spans last (some p.1) X
        ∨ q = ⟨p.1, p.2, gap last p.1 (nextAddr none Y)⟩
        ∨ q ∈ spans last none Y := by
  rw [spans_append, List.mem_append, spans, List.mem_cons]
  rfl

theorem mem_shapes_of_span {q : Span} (h : q ∈ spans last next P) :
    (q.addr, q.free) ∈ P := by
  induction P with
  | nil => cases h
  | cons p rest ih =>
      rw [spans] at h
      rcases List.mem_cons.mp h with rfl | h
      · exact List.mem_cons_self
      · exact List.mem_cons_of_mem _ (ih h)

-- ======================================================= reading the chain

theorem blockSize_eq_gap : blockSize last t B
    = gap last t.addr (nextAddr none (shapes B)) := by
  cases B <;> rfl

/-- The blocks of a chain are those one can split it at. -/
theorem span_iff {q : Span} : q ∈ spans last none (shapes L)
    ↔ ∃ A t B, L = A ++ t :: B
      ∧ q = ⟨t.addr, t.listed, blockSize last t B⟩ := by
  constructor
  · intro h
    induction L with
    | nil => cases h
    | cons t rest ih =>
        rw [shapes_cons, spans] at h
        rcases List.mem_cons.mp h with rfl | h
        · exact ⟨[], t, rest, rfl, by rw [blockSize_eq_gap]⟩
        · obtain ⟨A, b, B, rfl, hq⟩ := ih h
          exact ⟨t :: A, b, B, rfl, hq⟩
  · intro h
    obtain ⟨A, t, B, rfl, rfl⟩ := h
    rw [shapes_append, shapes_cons, mem_spans]
    exact .inr (.inl (by rw [blockSize_eq_gap]))

/-- A block's span is what the program reads. -/
theorem Chain.read_span (h : Chain s.mem L) {q : Span}
    (hq : q ∈ spans s.lastBlockSize none (shapes L)) :
    getBlockSize s q.addr = some q.size
      ∧ (s.status q.addr = some FREE ↔ q.free = true) := by
  obtain ⟨A, t, B, rfl, rfl⟩ := span_iff.mp hq
  refine ⟨getBlockSize_eq h, ?_⟩
  rw [State.status_eq h.mem, statusOf]
  dsimp only
  cases t.listed <;> decide

/-- A header of the chain has a span. -/
theorem Chain.exists_span (h : Chain s.mem L) (hhead : s.head = firstAddr L)
    {p : Int} (hp : OnChain s p) :
    ∃ q ∈ spans s.lastBlockSize none (shapes L), q.addr = p := by
  obtain ⟨t, ht, rfl⟩ := (onChain_iff h hhead).mp hp
  obtain ⟨A, B, rfl⟩ := List.append_of_mem ht
  exact ⟨_, span_iff.mpr ⟨A, t, B, rfl, rfl⟩, rfl⟩

theorem Chain.onChain_span (h : Chain s.mem L) (hhead : s.head = firstAddr L)
    {q : Span} (hq : q ∈ spans s.lastBlockSize none (shapes L)) :
    OnChain s q.addr := by
  obtain ⟨A, t, B, rfl, rfl⟩ := span_iff.mp hq
  exact (onChain_iff h hhead).mpr ⟨t, by simp, rfl⟩

/-- Memory holds one chain from a place on. -/
theorem Chain.unique (h : Chain m (A ++ B)) (h' : Chain m (A ++ B'))
    (hfirst : firstAddr B = firstAddr B') : B = B' := by
  induction B generalizing A B' with
  | nil =>
      cases B' with
      | nil => rfl
      | cons t rest => exact absurd hfirst.symm h'.mem.ne_null
  | cons t rest ih =>
      cases B' with
      | nil => exact absurd hfirst h.mem.ne_null
      | cons t' rest' =>
          have haddr : t.addr = t'.addr := hfirst
          have hlink := h'.mem.link
          have hstatus := h'.mem.status
          rw [← haddr, h.mem.link] at hlink
          rw [← haddr, h.mem.status, statusOf, statusOf] at hstatus
          have hlisted : t.listed = t'.listed := by
            cases ht : t.listed <;> cases ht' : t'.listed <;>
              rw [ht, ht'] at hstatus <;> first | rfl | cases hstatus
          obtain rfl : t = t' := by
            cases t
            cases t'
            simp_all
          have hnext := h'.linked_at.1
          rw [h.linked_at.1] at hnext
          rw [ih h.shift h'.shift hnext]

-- ================================================================= merges

/-- A merge leaves the sizes of the blocks around the merged one alone. -/
theorem Merges.spans_around (h : Merges A t B A' t' B')
    (hlast : B' ≠ [] → last' = last) {q : Span}
    (hq : q ∈ spans last' (some t'.addr) (shapes A')
      ∨ q ∈ spans last' none (shapes B')) :
    q ∈ spans last none (shapes (A ++ t :: B)) := by
  have hB : q ∈ spans last' none (shapes B') →
      q ∈ spans last none (shapes B') := by
    intro hq
    rwa [spans_behind last last'] at hq
    intro hne
    exact hlast fun hnil => hne (by rw [hnil]; rfl)
  have hA : q ∈ spans last' (some t'.addr) (shapes A') →
      q ∈ spans last (some t'.addr) (shapes A') := by
    intro hq
    rwa [spans_some last' last] at hq
  cases h with
  | neither =>
      rw [shapes_append, shapes_cons, mem_spans]
      exact hq.imp hA fun hq => .inr (hB hq)
  | next =>
      rw [shapes_append, shapes_cons, mem_spans, shapes_cons]
      refine hq.imp hA fun hq => .inr ?_
      exact List.mem_cons_of_mem _ (hB hq)
  | prev _ w =>
      rw [List.append_assoc, List.singleton_append, shapes_append, shapes_cons,
        mem_spans, shapes_cons]
      refine hq.imp hA fun hq => .inr ?_
      exact List.mem_cons_of_mem _ (hB hq)
  | both _ w _ x =>
      rw [List.append_assoc, List.singleton_append, shapes_append, shapes_cons,
        mem_spans, shapes_cons, shapes_cons]
      refine hq.imp hA fun hq => .inr ?_
      exact List.mem_cons_of_mem _ (List.mem_cons_of_mem _ (hB hq))

/-- A block that is neither merged nor absorbed keeps its size. -/
theorem Merges.span_kept (h : Merges A t B A' t' B')
    (hlast : B' ≠ [] → last' = last) {q : Span}
    (hq : q ∈ spans last none (shapes (A ++ t :: B)))
    (hne : q.addr ≠ t'.addr) (hin : ¬Absorbed A t B (q.addr, q.free)) :
    q ∈ spans last' (some t'.addr) (shapes A')
      ∨ q ∈ spans last' none (shapes B') := by
  have hB : q ∈ spans last none (shapes B') →
      q ∈ spans last' none (shapes B') := by
    intro hq
    rwa [spans_behind last last']
    intro hne
    exact hlast fun hnil => hne (by rw [hnil]; rfl)
  have hA : q ∈ spans last (some t'.addr) (shapes A') →
      q ∈ spans last' (some t'.addr) (shapes A') := by
    intro hq
    rwa [spans_some last' last]
  cases h with
  | neither =>
      rw [shapes_append, shapes_cons, mem_spans] at hq
      rcases hq with hq | rfl | hq
      · exact .inl (hA hq)
      · exact absurd rfl hne
      · exact .inr (hB hq)
  | next _ _ x _ _ hx =>
      rw [shapes_append, shapes_cons, mem_spans, shapes_cons, spans] at hq
      rcases hq with hq | rfl | hq
      · exact .inl (hA hq)
      · exact absurd rfl hne
      · rcases List.mem_cons.mp hq with rfl | hq
        · exact absurd (.inl ⟨x, rfl, hx, by rw [hx]⟩) hin
        · exact .inr (hB hq)
  | prev _ w _ _ hw =>
      rw [List.append_assoc, List.singleton_append, shapes_append, shapes_cons,
        mem_spans, shapes_cons, spans] at hq
      rcases hq with hq | rfl | hq
      · exact .inl (hA hq)
      · exact absurd rfl hne
      · rcases List.mem_cons.mp hq with rfl | hq
        · exact absurd (.inr ⟨rfl, w, List.getLast?_concat, hw⟩) hin
        · exact .inr (hB hq)
  | both _ w _ x _ hw hx =>
      rw [List.append_assoc, List.singleton_append, shapes_append, shapes_cons,
        mem_spans, shapes_cons, shapes_cons, spans, spans] at hq
      rcases hq with hq | rfl | hq
      · exact .inl (hA hq)
      · exact absurd rfl hne
      · rcases List.mem_cons.mp hq with rfl | hq
        · exact absurd (.inr ⟨rfl, w, List.getLast?_concat, hw⟩) hin
        · rcases List.mem_cons.mp hq with rfl | hq
          · exact absurd (.inl ⟨x, rfl, hx, by rw [hx]⟩) hin
          · exact .inr (hB hq)

end OperatingSystem.Heap
