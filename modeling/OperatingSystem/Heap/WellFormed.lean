/-
Well-formed heaps.

A heap is well formed, `L` being its chain, when the free list from
`head_free` is all the FREE blocks of `L`, in the order of the chain, and
`next_free` of an ALLOCATED block is `NULL`. Nothing is asked of the cached
pointers or of the recorded sizes, so this is what a single call can be
expected to keep whatever calls came before it.

A state has one chain (`WellFormed.unique`), and whether it is well formed
with a given one can be computed.
-/
import OperatingSystem.Heap.Ends
import OperatingSystem.Heap.Sizes

namespace OperatingSystem.Heap

open Lib (Words Linked firstListed NoneListed Unbroken)

variable {s s' : State} {m : Words} {A B L L' : List Block} {t t' : Block}

/-- The chain is `L`, and its FREE blocks are the free list. -/
structure WellFormed (s : State) (L : List Block) : Prop where
  ready : s.ready
  chain : Chain s.mem L
  head : s.head = firstAddr L
  unbroken : Unbroken NULL NULL L
  headFree : s.headFree = firstListed NULL L

/-- The addresses of the FREE blocks. -/
def frees (L : List Block) : List Int :=
  (L.filter Lib.Cell.listed).map Lib.Cell.addr

theorem frees_append (A B : List Block) :
    frees (A ++ B) = frees A ++ frees B := by
  rw [frees, List.filter_append, List.map_append]
  rfl

theorem frees_cons (t : Block) (B : List Block) :
    frees (t :: B) = (if t.listed then [t.addr] else []) ++ frees B := by
  unfold frees
  rw [List.filter_cons]
  split <;> rfl

/-- Where the FREE blocks are is a matter of shapes. -/
theorem frees_congr (h : shapes L = shapes L') : frees L = frees L' := by
  have hshapes : ∀ L : List Block,
      frees L = ((shapes L).filter Prod.snd).map Prod.fst := by
    intro L
    rw [frees, shapes, List.filter_map, List.map_map]
    rfl
  rw [hshapes, hshapes, h]

theorem mem_frees {a : Int} : a ∈ frees L ↔ (a, true) ∈ shapes L := by
  unfold frees shapes
  simp only [List.mem_map, List.mem_filter, Prod.mk.injEq]
  constructor
  · intro h
    obtain ⟨b, ⟨hb, hfree⟩, rfl⟩ := h
    exact ⟨b, hb, rfl, hfree⟩
  · intro h
    obtain ⟨b, hb, rfl, hfree⟩ := h
    exact ⟨b, ⟨hb, hfree⟩, rfl⟩

-- ========================================================== one chain only

/-- A state has one chain. -/
theorem WellFormed.eq_of_chain (h : WellFormed s L) (hc : Chain s.mem L')
    (hhead : s.head = firstAddr L') : L = L' :=
  Chain.unique (A := []) h.chain hc (h.head.symm.trans hhead)

theorem WellFormed.unique (h : WellFormed s L) (h' : WellFormed s L') :
    L = L' := h.eq_of_chain h'.chain h'.head

/-- Two places in one list are the same, or one is in front of the other. -/
theorem split_cases {α : Type*} {A B A' B' : List α} {t t' : α}
    (h : A ++ t :: B = A' ++ t' :: B') :
    A = A' ∧ t = t' ∧ B = B'
      ∨ (∃ D, A' = A ++ t :: D ∧ B = D ++ t' :: B')
      ∨ ∃ D, A = A' ++ t' :: D ∧ B' = D ++ t :: B := by
  rcases List.append_eq_append_iff.mp h with ⟨D, rfl, hD⟩ | ⟨D, rfl, hD⟩
  · cases D with
    | nil =>
        obtain ⟨rfl, rfl⟩ := List.cons.inj hD
        exact .inl ⟨(List.append_nil A).symm, rfl, rfl⟩
    | cons d D =>
        obtain ⟨rfl, rfl⟩ := List.cons.inj hD
        exact .inr (.inl ⟨D, rfl, rfl⟩)
  · cases D with
    | nil =>
        obtain ⟨rfl, rfl⟩ := List.cons.inj hD
        exact .inl ⟨List.append_nil A', rfl, rfl⟩
    | cons d D =>
        obtain ⟨rfl, rfl⟩ := List.cons.inj hD
        exact .inr (.inr ⟨D, rfl, rfl⟩)

/-- An address is at one place of a chain. -/
theorem Chain.split_unique (h : Chain m (A ++ t :: B)) {A' B' : List Block}
    (heq : A ++ t :: B = A' ++ t' :: B') (haddr : t.addr = t'.addr) :
    A = A' ∧ t = t' ∧ B = B' := by
  rcases split_cases heq with hsame | ⟨D, -, rfl⟩ | ⟨D, rfl, -⟩
  · exact hsame
  · have := h.behind t' (by simp)
    omega
  · have := h.before t' (by simp)
    omega

/-- What is listed behind a block is not the block. -/
theorem Chain.firstListed_ne {m : Words} (h : Chain m (A ++ t :: B)) :
    firstListed NULL B ≠ t.addr := by
  rcases Lib.exists_first B with hnone | ⟨D, d, E, rfl, hd, hD⟩
  · rw [Lib.firstListed_none hnone]
    exact h.mem.ne_null.symm
  · have := h.behind d (by simp)
    rw [Lib.firstListed_split hd hD]
    omega

-- ============================================================ the free list

/-- The nodes of the free list are the FREE blocks. -/
theorem WellFormed.freeNodes (h : WellFormed s L) :
    FreeNodes s s.headFree (frees L) := by
  obtain ⟨-, hchain, -, hunbroken, hfree⟩ := h
  rw [hfree]
  have hfrom : ∀ A B : List Block, L = A ++ B →
      FreeNodes s (firstListed NULL B) (frees B) := by
    intro A B
    induction B generalizing A with
    | nil => exact fun _ => .nil
    | cons t rest ih =>
        intro hL
        have hrest := ih (A ++ [t]) (by rw [hL]; simp)
        rw [hL] at hchain hunbroken
        rw [frees_cons, firstListed]
        cases ht : t.listed with
        | false => exact hrest
        | true =>
            obtain ⟨-, hlink, -⟩ := Lib.unbroken_append.mp hunbroken
            rw [if_pos ht] at hlink
            have h₀ := hchain.mem.mapped (k := 0) (by decide) (by decide)
              (by decide)
            rw [Int.add_zero] at h₀
            rw [if_pos rfl, if_pos rfl, List.singleton_append]
            refine .cons h₀ (hchain.mem.mapped (by decide) (by decide)
              (by decide)) hchain.mem.ne_null ?_ hrest
            rw [State.nextFree_eq hchain.mem, hlink]
  exact hfrom [] L rfl

-- =============================================================== deciding

instance : Decidable (Holds m t) :=
  decidable_of_iff (0 < t.addr ∧ m.base ≤ t.addr
      ∧ t.addr + 32 ≤ m.base + m.size ∧ t.addr % 8 = 0
      ∧ m.word (t.addr + 16) = t.link
      ∧ Lib.i32 (m.word (t.addr + 24)) = statusOf t)
    ⟨fun ⟨h₁, h₂, h₃, h₄, h₅, h₆⟩ => ⟨h₁, h₂, h₃, h₄, h₅, h₆⟩,
      fun ⟨h₁, h₂, h₃, h₄, h₅, h₆⟩ => ⟨h₁, h₂, h₃, h₄, h₅, h₆⟩⟩

instance : Decidable (Chain m L) :=
  decidable_of_iff (Linked m.word (fun a => m.word (a + 8)) NULL
      (L.map Lib.Cell.addr) NULL ∧ (∀ b ∈ L, Holds m b)
      ∧ (L.map Lib.Cell.addr).Pairwise fun a b => a + 40 ≤ b)
    ⟨fun ⟨h₁, h₂, h₃⟩ => ⟨h₁, h₂, h₃⟩, fun ⟨h₁, h₂, h₃⟩ => ⟨h₁, h₂, h₃⟩⟩

instance : Decidable (WellFormed s L) :=
  decidable_of_iff (s.ready ∧ Chain s.mem L ∧ s.head = firstAddr L
      ∧ Unbroken NULL NULL L ∧ s.headFree = firstListed NULL L)
    ⟨fun ⟨h₁, h₂, h₃, h₄, h₅⟩ => ⟨h₁, h₂, h₃, h₄, h₅⟩,
      fun ⟨h₁, h₂, h₃, h₄, h₅⟩ => ⟨h₁, h₂, h₃, h₄, h₅⟩⟩

/-- Two FREE blocks, the second one cut off the first. -/
example : ∃ c, Lib.run (client fun _ _ => True) [.alloc 9 8, .free 9 65616 0]
      (opened 24) = some c
    ∧ WellFormed c.heap [⟨65584, 65624, true⟩, ⟨65624, NULL, true⟩] :=
  ⟨_, (Option.some_get (by decide +kernel)).symm, by decide +kernel⟩

end OperatingSystem.Heap
