/-
The block chain as a row of headers.

`Row m H` asks of memory only what makes `H` a doubly linked list: the
headers are mapped, do not overlap, and are linked both ways in address
order. A status may be any `int`, `next_free` any address, and a block may
be empty.

A header is taken out of a row by two writes (`Row.remove`, `Row.linkTo`),
and a write of `next_free` leaves it alone (`Row.putLink`).
-/
import OperatingSystem.Heap.Basic
import OperatingSystem.Lib.DoublyLinked

namespace OperatingSystem.Heap

open Lib (Words Linked i32)

/-- A header: its address and what its `status` says. -/
structure Header where
  addr : Int
  status : Int
  deriving DecidableEq, Repr

variable {m m' : Words} {s : State} {A B H : List Header} {t x w h g : Header}
  {v i k : Int}

/-- The first header's address, or `NULL`. -/
def nextOf (B : List Header) : Int := (B.map Header.addr).headD NULL

/-- The last header's address, or `NULL`. -/
def prevOf (A : List Header) : Int := (A.map Header.addr).getLastD NULL

/-- The header `h` lies in `m`. -/
structure Held (m : Words) (h : Header) : Prop where
  pos : 0 < h.addr
  low : m.base ≤ h.addr
  high : h.addr + BLOCK_HEADER ≤ m.base + m.size
  aligned : h.addr % 8 = 0
  status : i32 (m.word (h.addr + 24)) = h.status

/-- Memory `m` holds the headers `H`, linked both ways and in address
order. -/
structure Row (m : Words) (H : List Header) : Prop where
  linked : Linked m.word (fun a => m.word (a + 8)) NULL (H.map Header.addr)
    NULL
  held : ∀ h ∈ H, Held m h
  apart : H.Pairwise fun h k => h.addr + BLOCK_HEADER ≤ k.addr

-- ================================================================ reading

@[simp] theorem nextOf_nil : nextOf [] = NULL := rfl

@[simp] theorem nextOf_cons : nextOf (h :: B) = h.addr := rfl

@[simp] theorem prevOf_nil : prevOf [] = NULL := rfl

@[simp] theorem prevOf_concat : prevOf (A ++ [h]) = h.addr := by
  simp [prevOf]

theorem Held.ne_null (hh : Held m h) : h.addr ≠ NULL := by
  have := hh.pos
  unfold NULL
  omega

theorem Held.mapped (hh : Held m h) (hlo : 0 ≤ k) (hhi : k ≤ 24)
    (hk : k % 8 = 0) : m.Mapped (h.addr + k) := by
  have h₁ := hh.low
  have h₂ := hh.high
  have h₃ := hh.aligned
  unfold BLOCK_HEADER at h₂
  exact ⟨by omega, by omega, by omega⟩

theorem Row.mid (hr : Row m (A ++ t :: B)) : Held m t :=
  hr.held t (List.mem_append_right _ List.mem_cons_self)

theorem Row.before (hr : Row m (A ++ t :: B)) :
    ∀ a ∈ A, a.addr + 32 ≤ t.addr := fun a ha =>
  (List.pairwise_append.mp hr.apart).2.2 a ha t List.mem_cons_self

theorem Row.behind (hr : Row m (A ++ t :: B)) :
    ∀ b ∈ B, t.addr + 32 ≤ b.addr := fun b hb =>
  (List.pairwise_cons.mp (List.pairwise_append.mp hr.apart).2.1).1 b hb

theorem Row.shift (hr : Row m (A ++ t :: B)) : Row m ((A ++ [t]) ++ B) := by
  rwa [List.append_assoc, List.singleton_append]

theorem Row.unshift (hr : Row m ((A ++ [t]) ++ B)) : Row m (A ++ t :: B) := by
  rwa [List.append_assoc, List.singleton_append] at hr

/-- The row ends where the first address is `NULL`. -/
theorem Row.nextOf_eq_null (hr : Row m (A ++ B)) : nextOf B = NULL ↔ B = [] := by
  cases B with
  | nil => simp
  | cons b rest => exact ⟨fun hnull => absurd hnull hr.mid.ne_null, nofun⟩

/-- Words at different offsets of two headers are different words. -/
theorem Row.word_ne (hr : Row m H) (hh : h ∈ H) (hg : g ∈ H) (hi : 0 ≤ i)
    (hi' : i ≤ 24) (hk : 0 ≤ k) (hk' : k ≤ 24) (hne : i ≠ k) :
    h.addr + i ≠ g.addr + k := by
  obtain ⟨A, B, rfl⟩ := List.append_of_mem hh
  rcases List.mem_append.mp hg with hg | hg
  · have := hr.before g hg
    omega
  · rcases List.mem_cons.mp hg with rfl | hg
    · omega
    · have := hr.behind g hg
      omega

theorem Row.linked_at (hr : Row m (A ++ t :: B)) :
    m.word t.addr = nextOf B ∧ m.word (t.addr + 8) = prevOf A := by
  have hl := hr.linked
  rw [List.map_append, List.map_cons, Lib.linked_split] at hl
  exact ⟨hl.2.1, hl.2.2.1⟩

theorem Row.next (hr : Row s.mem (A ++ t :: B)) :
    s.next t.addr = some (nextOf B) := by
  have hm := hr.mid.mapped (k := 0) (by decide) (by decide) (by decide)
  rw [Int.add_zero] at hm
  rw [State.next, Words.load_of_mapped hm, hr.linked_at.1]

theorem Row.prev (hr : Row s.mem (A ++ t :: B)) :
    s.prev t.addr = some (prevOf A) := by
  have hm := hr.mid.mapped (k := 8) (by decide) (by decide) (by decide)
  rw [State.prev, Words.load_of_mapped hm, hr.linked_at.2]

theorem Held.nextFree (hh : Held s.mem h) :
    s.nextFree h.addr = some (s.mem.word (h.addr + 16)) :=
  Words.load_of_mapped (hh.mapped (by decide) (by decide) (by decide))

theorem Held.read_status (hh : Held s.mem h) :
    s.status h.addr = some h.status := by
  have hm := hh.mapped (k := 24) (by decide) (by decide) (by decide)
  rw [State.status, Words.load_of_mapped hm, Option.map_some, hh.status]

-- ================================================================= edits

theorem Held.congr (hh : Held m h) (hbase : m'.base = m.base)
    (hsize : m'.size = m.size)
    (hword : m'.word (h.addr + 24) = m.word (h.addr + 24)) : Held m' h where
  pos := hh.pos
  low := hbase ▸ hh.low
  high := by rw [hbase, hsize]; exact hh.high
  aligned := hh.aligned
  status := by rw [hword]; exact hh.status

/-- A new `next_free` is no matter of the row. -/
theorem Row.putLink (hr : Row m H) (ht : t ∈ H) :
    Row (m.put (t.addr + 16) v) H where
  linked := by
    refine hr.linked.congr ?_ ?_
    · refine List.forall_mem_map.mpr fun h hh => Words.put_word_ne ?_
      have := hr.word_ne (i := 0) (k := 16) hh ht (by decide) (by decide)
        (by decide) (by decide) (by decide)
      omega
    · refine List.forall_mem_map.mpr fun h hh => Words.put_word_ne ?_
      exact hr.word_ne hh ht (by decide) (by decide) (by decide) (by decide)
        (by decide)
  held := by
    intro h hh
    refine (hr.held h hh).congr rfl rfl (Words.put_word_ne ?_)
    exact hr.word_ne hh ht (by decide) (by decide) (by decide) (by decide)
      (by decide)
  apart := hr.apart

/-- A write of `next` of `t` and one of `prev` of `b` leave the other words
of the headers alone. -/
theorem Row.kept {b : Option Header} (hr : Row m H) (ht : t ∈ H)
    (hb : ∀ c ∈ b, c ∈ H) (hout : ∀ y, y ≠ t.addr →
      (∀ c ∈ b, y ≠ c.addr + 8) → m'.word y = m.word y) (hh : h ∈ H) :
    (h.addr ≠ t.addr → m'.word h.addr = m.word h.addr)
      ∧ ((∀ c ∈ b, h.addr ≠ c.addr) →
        m'.word (h.addr + 8) = m.word (h.addr + 8))
      ∧ m'.word (h.addr + 16) = m.word (h.addr + 16)
      ∧ m'.word (h.addr + 24) = m.word (h.addr + 24) := by
  have hnext : ∀ k, 0 < k → k ≤ 24 → h.addr + k ≠ t.addr := by
    intro k hpos hk
    have := hr.word_ne (k := 0) hh ht (by omega) hk (by omega) (by omega)
      (by omega)
    omega
  have hprev : ∀ k, 0 ≤ k → k ≤ 24 → k ≠ 8 → ∀ c ∈ b,
      h.addr + k ≠ c.addr + 8 := fun k hlo hhi hk c hc =>
    hr.word_ne hh (hb c hc) hlo hhi (by decide) (by decide) hk
  refine ⟨fun hne => ?_, fun hne => ?_, ?_, ?_⟩
  · refine hout _ hne fun c hc => ?_
    have := hprev 0 (by decide) (by decide) (by decide) c hc
    omega
  · refine hout _ (hnext 8 (by decide) (by decide)) fun c hc => ?_
    have := hne c hc
    omega
  · exact hout _ (hnext 16 (by decide) (by decide))
      (hprev 16 (by decide) (by decide) (by decide))
  · exact hout _ (hnext 24 (by decide) (by decide))
      (hprev 24 (by decide) (by decide) (by decide))

/-- The header behind `t` taken out: memory changes in `next` of `t` and in
`prev` of the header that follows. -/
theorem Row.remove (hr : Row m (A ++ t :: x :: B)) (hbase : m'.base = m.base)
    (hsize : m'.size = m.size) (ht : m'.word t.addr = nextOf B)
    (hfirst : ∀ b ∈ B.head?, m'.word (b.addr + 8) = t.addr)
    (hout : ∀ y, y ≠ t.addr → (∀ b ∈ B.head?, y ≠ b.addr + 8) →
      m'.word y = m.word y) : Row m' (A ++ t :: B)
      ∧ ∀ h ∈ A ++ t :: B, m'.word (h.addr + 16) = m.word (h.addr + 16) := by
  have hsub : (A ++ t :: B).Sublist (A ++ t :: x :: B) :=
    List.Sublist.append_left (.cons_cons _ (.cons _ (.refl _))) _
  have hkept (h : Header) (hh : h ∈ A ++ t :: B) :=
    hr.kept (t := t) (b := B.head?) (by simp)
      (fun c hc => by simp [List.mem_of_mem_head? hc]) hout (hsub.subset hh)
  have hA := hr.before
  have hB := hr.behind
  have hxB := hr.shift.behind
  refine ⟨⟨?linked, ?held, hr.apart.sublist hsub⟩,
    fun h hh => (hkept h hh).2.2.1⟩
  case linked =>
    have hl := hr.linked
    rw [List.map_append, List.map_cons, List.map_cons] at hl
    rw [List.map_append, List.map_cons]
    -- what is in front of `x` is not the header that follows it
    have hfront : ∀ a ∈ A ++ [t], ∀ b ∈ B.head?, a.addr ≠ b.addr := by
      intro a ha b hb
      have hb := hxB b (List.mem_of_mem_head? hb)
      have hx := hB x List.mem_cons_self
      rcases List.mem_append.mp ha with ha | ha
      · have := hA a ha
        omega
      · obtain rfl := List.mem_singleton.mp ha
        omega
    refine hl.remove ?_ ?_ (ht.trans hr.shift.linked_at.1.symm) ?_ ?_ ?_ ?_
    · refine List.forall_mem_map.mpr fun a ha => (hkept a (by simp [ha])).1 ?_
      have := hA a ha
      omega
    · refine List.forall_mem_map.mpr fun a ha => ?_
      exact (hkept a (by simp [ha])).2.1 (hfront a (by simp [ha]))
    · exact (hkept t (by simp)).2.1 (hfront t (by simp))
    · refine List.forall_mem_map.mpr fun b hb => (hkept b (by simp [hb])).1 ?_
      have := hB b (List.mem_cons_of_mem _ hb)
      omega
    · rw [← List.map_tail]
      refine List.forall_mem_map.mpr fun b hb => ?_
      have hb' := List.mem_of_mem_tail hb
      refine (hkept b (by simp [hb'])).2.1 fun c hc => ?_
      cases B with
      | nil => cases hc
      | cons d rest =>
          cases hc
          have := hr.shift.shift.behind b hb
          omega
    · intro a ha
      rw [List.head?_map] at ha
      obtain ⟨b, hb, rfl⟩ := Option.map_eq_some_iff.mp ha
      exact hfirst b hb
  case held =>
    exact fun h hh => (hr.held h (hsub.subset hh)).congr hbase hsize
      (hkept h hh).2.2.2

/-- What `linkTo` takes out of a row. -/
theorem Row.linkTo (hr : Row s.mem (A ++ t :: x :: B)) :
    ∃ m', linkTo s t.addr (nextOf B) = some { s with mem := m' }
      ∧ m'.base = s.mem.base ∧ m'.size = s.mem.size
      ∧ Row m' (A ++ t :: B) ∧ ∀ h ∈ A ++ t :: B,
        m'.word (h.addr + 16) = s.mem.word (h.addr + 16) := by
  have ht := hr.mid.mapped (k := 0) (by decide) (by decide) (by decide)
  rw [Int.add_zero] at ht
  unfold Heap.linkTo
  rw [State.setNext, State.store, Words.store_of_mapped ht, Option.map_some,
    Option.bind_eq_bind, Option.bind_some]
  cases B with
  | nil =>
      refine ⟨_, if_neg (not_not.mpr rfl), rfl, rfl, ?_⟩
      refine hr.remove rfl rfl Words.put_word_self (fun b hb => by cases hb) ?_
      exact fun y hy _ => Words.put_word_ne hy
  | cons b rest =>
      have hb : Held s.mem b := hr.held b (by simp)
      have hb' := hb.mapped (k := 8) (by decide) (by decide) (by decide)
      have hne := hr.word_ne (h := t) (g := b) (i := 0) (k := 8) (by simp)
        (by simp) (by decide) (by decide) (by decide) (by decide) (by decide)
      rw [nextOf_cons, if_pos hb.ne_null, State.setPrev, State.store,
        Words.store_of_mapped (Words.mapped_put.mpr hb'), Option.map_some]
      refine ⟨_, rfl, rfl, rfl, hr.remove rfl rfl ?_ ?_ ?_⟩
      · rw [Words.put_word_ne (by omega), Words.put_word_self]
        rfl
      · intro c hc
        cases hc
        exact Words.put_word_self
      · intro y hy hfirst
        rw [Words.put_word_ne (hfirst b rfl), Words.put_word_ne hy]

/-- `next_free` of `t` set, and the header behind `t` taken out. -/
theorem Row.splice (hr : Row s.mem (A ++ t :: x :: B)) (v : Int) :
    ∃ m₁ m₂, s.setNextFree t.addr v = some { s with mem := m₁ }
      ∧ Row m₁ (A ++ t :: x :: B)
      ∧ Heap.linkTo { s with mem := m₁ } t.addr (nextOf B)
        = some { s with mem := m₂ }
      ∧ m₂.base = s.mem.base ∧ m₂.size = s.mem.size
      ∧ Row m₂ (A ++ t :: B) := by
  have ht := hr.mid.mapped (k := 16) (by decide) (by decide) (by decide)
  have hr₁ : Row (s.mem.put (t.addr + 16) v) (A ++ t :: x :: B) :=
    hr.putLink (by simp)
  obtain ⟨m₂, hrun, hbase, hsize, hr₂, -⟩ := Row.linkTo
    (s := { s with mem := s.mem.put (t.addr + 16) v }) hr₁
  refine ⟨_, m₂, ?_, hr₁, hrun, hbase, hsize, hr₂⟩
  rw [State.setNextFree, State.store, Words.store_of_mapped ht,
    Option.map_some]

end OperatingSystem.Heap
