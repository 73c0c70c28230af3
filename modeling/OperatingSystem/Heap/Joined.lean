/-
What `my_coalesce` is for, and where it does it.

The block `t`, the next one and the previous one if they are FREE (`group`)
become one block at the lowest address, which ends where the highest of
them ended. The other blocks stay where they are, with their size and
status (`Joined`).

The links are always repaired (`myCoalesce_row`). The size of a block in
front of another is read off the headers and comes out right by itself; the
size of the last block is recorded, and what `my_coalesce` adds to the record
leaves out the header that has become part of the block, and is also added
when the block was the last one before. So the merged block ends where it
should unless it ends the chain, but for two coincidences (`Accounts`).
-/
import OperatingSystem.Heap.Client
import OperatingSystem.Heap.WellFormed
import Mathlib.Data.Set.Lattice
import Mathlib.Order.Interval.Set.LinearOrder

namespace OperatingSystem.Heap

open Lib (Words i64 i64_add i64_eq_iff)

variable {s s' : State} {A B H : List Header} {t w q j : Header}

-- ========================================================== the neighbours

/-- The first header of `B`, if it is FREE. -/
def freeFirst : List Header → List Header
  | [] => []
  | x :: _ => if x.status = FREE then [x] else []

/-- `B` without its first header, if that is FREE. -/
def restOf : List Header → List Header
  | [] => []
  | x :: B => if x.status = FREE then B else x :: B

/-- The last header of `A`, if it is FREE. -/
def freeLast (A : List Header) : List Header := freeFirst A.reverse

/-- `A` without its last header, if that is FREE. -/
def frontOf (A : List Header) : List Header := (restOf A.reverse).reverse

/-- The lowest block that is merged when `t` is coalesced behind `A`. -/
def lowest (A : List Header) (t : Header) : Header := (freeLast A).headD t

/-- The highest block that is merged when `t` is coalesced in front of
`B`. -/
def highest (t : Header) (B : List Header) : Header := (freeFirst B).headD t

theorem freeFirst_append_restOf (B : List Header) :
    freeFirst B ++ restOf B = B := by
  cases B with
  | nil => rfl
  | cons x rest =>
      rw [freeFirst, restOf]
      split <;> rfl

theorem freeLast_concat : freeLast (A ++ [w])
    = if w.status = FREE then [w] else [] := by
  rw [freeLast, List.reverse_append]
  rfl

theorem frontOf_concat : frontOf (A ++ [w])
    = if w.status = FREE then A else A ++ [w] := by
  rw [frontOf, List.reverse_append]
  show (restOf (w :: A.reverse)).reverse = _
  rw [restOf]
  split
  · rw [List.reverse_reverse]
  · rw [List.reverse_cons, List.reverse_reverse]

-- ======================================================= what is expected

/-- The block chain of `s` is `H`; the length of the mapping is a `long`. -/
structure Headers (s : State) (H : List Header) : Prop where
  head : s.head = nextOf H
  row : Row s.mem H
  length : s.mem.size < 9223372036854775808

/-- `t` and its FREE neighbours. -/
def group (A : List Header) (t : Header) (B : List Header) : List Header :=
  freeLast A ++ t :: freeFirst B

/-- Where a block ends. -/
def blockEnd (s : State) (p : Int) : Option Int :=
  (getBlockSize s p).map fun size => p + BLOCK_HEADER + size

/-- The addresses from `a` up to `e`. -/
def upTo (a e : Int) : Set Int := {y | a ≤ y ∧ y < e}

/-- The addresses a block covers, from its header on. -/
def covered (s : State) (p : Int) : Set Int :=
  {y | ∃ e, blockEnd s p = some e ∧ y ∈ upTo p e}

/-- In `s'` the block `j` is `t` and its FREE neighbours in `s`, and all
else is as it was. -/
structure Joined (s : State) (A : List Header) (t : Header) (B : List Header)
    (j : Header) (s' : State) : Prop where
  mem : j ∈ group A t B
  lowest : ∀ g ∈ group A t B, j.addr ≤ g.addr
  headers : Headers s' (frontOf A ++ j :: restOf B)
  ends : ∃ g ∈ group A t B, (∀ g' ∈ group A t B, g'.addr ≤ g.addr)
    ∧ blockEnd s' j.addr = blockEnd s g.addr
  covers : covered s' j.addr = ⋃ g ∈ group A t B, covered s g.addr
  others : ∀ q ∈ frontOf A ++ restOf B,
    getBlockSize s' q.addr = getBlockSize s q.addr

/-- The merged block has another one behind it, or `t` is the last block and
the record, doubled, happens to be right. -/
def Accounts (s : State) (A : List Header) : (B : List Header) → Prop
  | [] => s.lastBlockSize = if freeLast A = [] then 0 else BLOCK_HEADER
  | [x] => x.status ≠ FREE
  | _ :: _ :: _ => True

-- ============================================================== the group

theorem frontOf_append_freeLast (A : List Header) :
    frontOf A ++ freeLast A = A := by
  rcases List.eq_nil_or_concat A with rfl | ⟨A, w, rfl⟩
  · rfl
  · rw [List.concat_eq_append, frontOf_concat, freeLast_concat]
    split
    · rfl
    · rw [List.append_nil]

/-- The chain is what is in front of the group, the group, and what is
behind it. -/
theorem split_group (A : List Header) (t : Header) (B : List Header) :
    frontOf A ++ (group A t B ++ restOf B) = A ++ t :: B := by
  rw [group, List.append_assoc, ← List.append_assoc, frontOf_append_freeLast,
    List.cons_append, freeFirst_append_restOf]

/-- The group from its lowest block. -/
theorem group_from_lowest (A : List Header) (t : Header) (B : List Header) :
    ∃ C, group A t B = lowest A t :: C := by
  unfold group lowest
  cases freeLast A with
  | nil => exact ⟨_, rfl⟩
  | cons w rest => exact ⟨_, rfl⟩

/-- The group up to its highest block. -/
theorem group_to_highest (A : List Header) (t : Header) (B : List Header) :
    ∃ C, group A t B = C ++ [highest t B] := by
  unfold group highest
  have hB : freeFirst B = [] ∨ ∃ x, freeFirst B = [x] := by
    cases B with
    | nil => exact .inl rfl
    | cons x rest =>
        rw [freeFirst]
        split
        · exact .inr ⟨x, rfl⟩
        · exact .inl rfl
  rcases hB with hB | ⟨x, hB⟩
  · rw [hB]
    exact ⟨_, rfl⟩
  · rw [hB]
    exact ⟨freeLast A ++ [t], by simp⟩

-- ============================================================== the halves

/-- A block's size: the gap to the next header, or the recorded size. -/
theorem Row.size (hr : Row s.mem (A ++ t :: B)) : getBlockSize s t.addr
    = some (gap s.lastBlockSize t.addr (B.head?.map Header.addr)) := by
  rw [getBlockSize, if_neg hr.mid.ne_null, hr.next, Option.bind_eq_bind,
    Option.bind_some]
  cases B with
  | nil => exact if_neg (not_not.mpr rfl)
  | cons b rest => exact if_pos hr.shift.mid.ne_null

/-- The first half takes out the next block if that is FREE. -/
theorem absorbNext_row (hr : Row s.mem (A ++ t :: B)) :
    ∃ s₁, absorbNext s t.addr = some s₁ ∧ Kept s s₁
      ∧ s₁.lastBlockSize = s.lastBlockSize
      ∧ Row s₁.mem (A ++ t :: restOf B) := by
  unfold absorbNext
  simp only [Option.bind_eq_bind]
  rw [hr.next, Option.bind_some]
  cases B with
  | nil => exact ⟨s, if_pos rfl, .refl s, rfl, hr⟩
  | cons x rest =>
      have hx : Held s.mem x := hr.held x (by simp)
      rw [nextOf_cons, if_neg hx.ne_null, hx.read_status, Option.bind_some,
        restOf]
      by_cases hfree : x.status = FREE
      · obtain ⟨m₁, m₂, hset, hr₁, hlink, hbase, hsize, hr₂⟩ := hr.splice
          (s.mem.word (x.addr + 16))
        have hnext := Row.next (s := { s with mem := m₁ }) hr₁.shift
        rw [if_neg (not_not.mpr hfree), if_pos hfree, hx.nextFree,
          Option.bind_some, hset, Option.bind_some, hnext, Option.bind_some,
          hlink, Option.bind_some]
        refine ⟨_, rfl, (kept_mem hbase hsize).trans (kept_forget _ _), ?_, ?_⟩
        · rw [forget_lastBlockSize]
        · rw [forget_mem]
          exact hr₂
      · rw [if_pos hfree, if_neg hfree]
        exact ⟨s, rfl, .refl s, rfl, hr⟩

/-- The second half takes out the block itself if the previous one is
FREE. -/
theorem absorbIntoPrev_row (hr : Row s.mem (A ++ t :: B)) (size : Int) :
    ∃ s₁, absorbIntoPrev s t.addr size = some ((lowest A t).addr, s₁)
      ∧ Kept s s₁ ∧ Row s₁.mem (frontOf A ++ lowest A t :: B)
      ∧ s₁.lastBlockSize = if freeLast A ≠ [] ∧ B = [] then
          i64 (s.lastBlockSize + size) else s.lastBlockSize := by
  unfold absorbIntoPrev lowest
  simp only [Option.bind_eq_bind]
  rw [hr.prev, Option.bind_some]
  rcases List.eq_nil_or_concat A with rfl | ⟨A, w, rfl⟩
  · exact ⟨s, if_pos rfl, .refl s, hr, (if_neg fun h => h.1 rfl).symm⟩
  · rw [List.concat_eq_append] at hr ⊢
    have hw : Held s.mem w := hr.held w (by simp)
    rw [prevOf_concat, if_neg hw.ne_null, hw.read_status, Option.bind_some,
      freeLast_concat, frontOf_concat]
    by_cases hfree : w.status = FREE
    · have ht := hr.mid
      obtain ⟨m₁, m₂, hset, hr₁, hlink, hbase, hsize, hr₂⟩ :=
        hr.unshift.splice (s.mem.word (t.addr + 16))
      have hnext := Row.next (s := { s with mem := m₁ }) hr₁.shift
      rw [if_neg (not_not.mpr hfree), if_pos hfree, if_pos hfree,
        ht.nextFree, Option.bind_some, hset, Option.bind_some, hnext,
        Option.bind_some, hlink, Option.bind_some]
      refine ⟨_, rfl, ((kept_mem hbase hsize).trans (kept_forget _ _)).trans
        (kept_growLast _ _ _), ?_, ?_⟩
      · rw [growLast_mem, forget_mem]
        exact hr₂
      · have hB := hr.shift.nextOf_eq_null
        unfold growLast
        by_cases hlast : B = []
        · rw [if_pos (hB.mpr hlast), if_pos ⟨List.cons_ne_nil _ _, hlast⟩,
            forget_lastBlockSize]
        · rw [if_neg (mt hB.mp hlast), if_neg fun h => hlast h.2,
            forget_lastBlockSize]
    · rw [if_pos hfree, if_neg hfree, if_neg hfree]
      exact ⟨s, rfl, .refl s, hr, (if_neg fun h => h.1 rfl).symm⟩

-- ========================================================== the whole call

/-- `last_block_size` after `my_coalesce` on `t`. -/
def recorded (last : Int) (A : List Header) (t : Header) (B : List Header) :
    Int :=
  if restOf B = [] then
    let grown := i64 (last + gap last t.addr (B.head?.map Header.addr))
    match freeLast A with
    | [] => grown
    | w :: _ => i64 (grown + (t.addr - (w.addr + 32)))
  else last

/-- On a block of a row `my_coalesce` returns the lowest block of its group,
which takes the place of the group. -/
theorem myCoalesce_row (hr : Row s.mem (A ++ t :: B)) :
    ∃ s', myCoalesce s t.addr = some ((lowest A t).addr, s') ∧ Kept s s'
      ∧ Row s'.mem (frontOf A ++ lowest A t :: restOf B)
      ∧ s'.lastBlockSize = recorded s.lastBlockSize A t B := by
  obtain ⟨s₁, hrun₁, hkept₁, hlast₁, hr₁⟩ := absorbNext_row hr
  have hnull := hr₁.shift.nextOf_eq_null
  -- the state once the recorded size has grown for the first time
  generalize hs₂ : growLast s₁ (nextOf (restOf B))
    (gap s.lastBlockSize t.addr (B.head?.map Header.addr)) = s₂
  have hkept₂ : Kept s s₂ := hs₂ ▸ hkept₁.trans (kept_growLast _ _ _)
  have hr₂ : Row s₂.mem (A ++ t :: restOf B) := by
    rw [← hs₂, growLast_mem]
    exact hr₁
  have hlast₂ : s₂.lastBlockSize = if restOf B = [] then
      i64 (s.lastBlockSize
        + gap s.lastBlockSize t.addr (B.head?.map Header.addr))
      else s.lastBlockSize := by
    rw [← hs₂, growLast, ← hlast₁]
    by_cases hB : restOf B = []
    · rw [if_pos (hnull.mpr hB), if_pos hB]
    · rw [if_neg (mt hnull.mp hB), if_neg hB]
  -- what the second half is told is the previous block's size
  obtain ⟨size, hsize, hprev⟩ : ∃ size, getBlockSize s₂ (prevOf A) = some size
      ∧ ∀ w ∈ freeLast A, size = t.addr - (w.addr + 32) := by
    rcases List.eq_nil_or_concat A with rfl | ⟨A, w, rfl⟩
    · exact ⟨_, if_pos rfl, fun w hw => by cases hw⟩
    · rw [List.concat_eq_append] at hr₂ ⊢
      refine ⟨_, by rw [prevOf_concat]; exact hr₂.unshift.size, ?_⟩
      intro w' hw'
      rw [freeLast_concat] at hw'
      split at hw'
      case isTrue =>
        obtain rfl := List.mem_singleton.mp hw'
        rfl
      case isFalse => cases hw'
  have hopen : myCoalesce s t.addr = absorbIntoPrev s₂ t.addr size := by
    unfold myCoalesce
    simp only [Option.bind_eq_bind]
    rw [if_neg hr.mid.ne_null, hr.size, Option.bind_some, hrun₁,
      Option.bind_some, hr₁.next, Option.bind_some, hs₂, hr₂.prev,
      Option.bind_some, hsize, Option.bind_some]
  obtain ⟨s', hrun, hkept, hr', hlast⟩ := absorbIntoPrev_row hr₂ size
  refine ⟨s', hopen.trans hrun, hkept₂.trans hkept, hr', ?_⟩
  rw [hlast, hlast₂, recorded]
  by_cases hB : restOf B = []
  · rw [if_pos hB, if_pos hB]
    cases hA : freeLast A with
    | nil => exact if_neg fun h => h.1 rfl
    | cons w rest =>
        rw [if_pos ⟨List.cons_ne_nil _ _, hB⟩, hprev w (by rw [hA]; simp)]
  · rw [if_neg hB, if_neg hB, if_neg fun h => hB h.2]

-- =============================================================== the sizes

/-- The row seen from the lowest block of the group. -/
theorem Row.at_lowest (hr : Row s.mem (A ++ t :: B)) :
    ∃ C, group A t B = lowest A t :: C
      ∧ Row s.mem (frontOf A ++ lowest A t :: (C ++ restOf B)) := by
  obtain ⟨C, hC⟩ := group_from_lowest A t B
  refine ⟨C, hC, ?_⟩
  rwa [← split_group, hC] at hr

/-- The row seen from the highest block of the group. -/
theorem Row.at_highest (hr : Row s.mem (A ++ t :: B)) :
    ∃ C, group A t B = C ++ [highest t B]
      ∧ Row s.mem (frontOf A ++ C ++ highest t B :: restOf B) := by
  obtain ⟨C, hC⟩ := group_to_highest A t B
  refine ⟨C, hC, ?_⟩
  rwa [← split_group, hC, List.append_assoc, List.singleton_append,
    ← List.append_assoc] at hr

theorem Row.lowest_le (hr : Row s.mem (A ++ t :: B)) :
    lowest A t ∈ group A t B ∧ ∀ g ∈ group A t B, (lowest A t).addr ≤ g.addr := by
  obtain ⟨C, hC, hr⟩ := hr.at_lowest
  rw [hC]
  refine ⟨List.mem_cons_self, fun g hg => ?_⟩
  rcases List.mem_cons.mp hg with rfl | hg
  · exact Int.le_refl _
  · have := hr.behind g (List.mem_append_left _ hg)
    omega

theorem Row.le_highest (hr : Row s.mem (A ++ t :: B)) :
    highest t B ∈ group A t B
      ∧ ∀ g ∈ group A t B, g.addr ≤ (highest t B).addr := by
  obtain ⟨C, hC, hr⟩ := hr.at_highest
  rw [hC]
  refine ⟨by simp, fun g hg => ?_⟩
  rcases List.mem_append.mp hg with hg | hg
  · have := hr.before g (List.mem_append_right _ hg)
    omega
  · rw [List.mem_singleton.mp hg]

/-- A block in front of the group or behind it keeps its size. -/
theorem size_kept (hr : Row s.mem (A ++ t :: B))
    (hr' : Row s'.mem (frontOf A ++ lowest A t :: restOf B))
    (hlast : restOf B ≠ [] → s'.lastBlockSize = s.lastBlockSize)
    (hq : q ∈ frontOf A ++ restOf B) :
    getBlockSize s' q.addr = getBlockSize s q.addr := by
  obtain ⟨C, -, hr⟩ := hr.at_lowest
  rcases List.mem_append.mp hq with hq | hq
  · obtain ⟨D, E, hD⟩ := List.append_of_mem hq
    rw [hD, List.append_assoc, List.cons_append] at hr hr'
    rw [hr.size, hr'.size]
    -- the next header is in front of the group, or the group's lowest
    cases E <;> rfl
  · obtain ⟨D, E, hD⟩ := List.append_of_mem hq
    have hlast := hlast (List.ne_nil_of_mem hq)
    have hr₁ : Row s.mem
        ((frontOf A ++ lowest A t :: (C ++ D)) ++ q :: E) := by
      rw [hD] at hr
      simpa using hr
    have hr₁' : Row s'.mem ((frontOf A ++ lowest A t :: D) ++ q :: E) := by
      rw [hD] at hr'
      simpa using hr'
    rw [hr₁.size, hr₁'.size, hlast]

/-- Where the merged block ends, and where the highest block did. -/
theorem blockEnds (hr : Row s.mem (A ++ t :: B))
    (hr' : Row s'.mem (frontOf A ++ lowest A t :: restOf B)) :
    blockEnd s' (lowest A t).addr = some ((lowest A t).addr + 32
        + gap s'.lastBlockSize (lowest A t).addr
          ((restOf B).head?.map Header.addr))
      ∧ blockEnd s (highest t B).addr = some ((highest t B).addr + 32
        + gap s.lastBlockSize (highest t B).addr
          ((restOf B).head?.map Header.addr)) := by
  obtain ⟨C, -, hr⟩ := hr.at_highest
  rw [blockEnd, blockEnd, hr'.size, hr.size]
  exact ⟨rfl, rfl⟩

/-- What has a block behind it ends in front of that. -/
theorem ends_behind (hr : Row s.mem (A ++ t :: B))
    (hr' : Row s'.mem (frontOf A ++ lowest A t :: restOf B))
    (hB : restOf B ≠ []) :
    blockEnd s' (lowest A t).addr = blockEnd s (highest t B).addr := by
  obtain ⟨hnew, hold⟩ := blockEnds hr hr'
  rw [hnew, hold]
  cases hrest : restOf B with
  | nil => exact absurd hrest hB
  | cons b rest =>
      dsimp only [List.head?_cons, Option.map_some, gap]
      congr 1
      omega

theorem restOf_eq_nil (hB : restOf B = []) :
    B = [] ∨ ∃ x, B = [x] ∧ x.status = FREE := by
  cases B with
  | nil => exact .inl rfl
  | cons x rest =>
      rw [restOf] at hB
      split at hB
      case isTrue hx =>
        subst hB
        exact .inr ⟨x, rfl, hx⟩
      case isFalse => cases hB

theorem accounts_of_behind (hB : restOf B ≠ []) : Accounts s A B := by
  match B with
  | [] => exact absurd rfl hB
  | [x] =>
      intro hx
      exact hB (if_pos hx)
  | _ :: _ :: _ => trivial

/-- The previous block, if it is FREE, lies in front of `t` in the
mapping. -/
theorem Row.freeLast_cases (hr : Row s.mem (A ++ t :: B)) :
    freeLast A = [] ∨ ∃ w, freeLast A = [w] ∧ w.addr + 32 ≤ t.addr
      ∧ t.addr - w.addr + 32 ≤ s.mem.size := by
  rcases List.eq_nil_or_concat A with rfl | ⟨A, w, rfl⟩
  · exact .inl rfl
  · rw [List.concat_eq_append] at hr ⊢
    rw [freeLast_concat]
    split
    · have hw := (hr.held w (by simp)).low
      have ht := hr.mid.high
      unfold BLOCK_HEADER at ht
      exact .inr ⟨w, rfl, hr.before w (by simp), by omega⟩
    · exact .inl rfl

/-- Where the merged block is the last one, the record says where it
ends. -/
theorem ends_last_iff (hr : Row s.mem (A ++ t :: B))
    (hr' : Row s'.mem (frontOf A ++ lowest A t :: restOf B))
    (hlen : s.mem.size < 9223372036854775808)
    (hlast : s'.lastBlockSize = recorded s.lastBlockSize A t B)
    (hB : restOf B = []) :
    blockEnd s' (lowest A t).addr = blockEnd s (highest t B).addr
      ↔ Accounts s A B := by
  obtain ⟨hnew, hold⟩ := blockEnds hr hr'
  rw [hnew, hold, hlast, recorded, if_pos hB, hB, Option.some.injEq, lowest]
  dsimp only [List.head?_nil, Option.map_none, gap]
  rcases restOf_eq_nil hB with rfl | ⟨x, rfl, hx⟩
  case inl =>
    -- the record is doubled: the block was the last one before
    rw [Accounts]
    show _ = t.addr + 32 + s.lastBlockSize ↔ _
    rcases hr.freeLast_cases with hA | ⟨w, hA, hlo, hhi⟩
    · rw [hA, if_pos rfl]
      dsimp only [List.headD_nil, List.head?_nil, Option.map_none]
      have hright := i64_eq_iff (n := s.lastBlockSize + s.lastBlockSize)
        (k := s.lastBlockSize)
      omega
    · rw [hA, if_neg (List.cons_ne_nil _ _)]
      dsimp only [List.headD_cons, List.head?_nil, Option.map_none,
        BLOCK_HEADER]
      rw [i64_add]
      have hright := i64_eq_iff
        (n := s.lastBlockSize + s.lastBlockSize + (t.addr - (w.addr + 32)))
        (k := s.lastBlockSize + (t.addr - w.addr))
      omega
  case inr =>
    -- the record lacks the header of `x`
    rw [Accounts, highest, freeFirst, if_pos hx]
    refine iff_of_false ?_ fun hne => hne hx
    dsimp only [List.head?_cons, Option.map_some, gap, List.headD_cons]
    rcases hr.freeLast_cases with hA | ⟨w, hA, -, -⟩
    · rw [hA]
      dsimp only [List.headD_nil]
      have hright := i64_eq_iff
        (n := s.lastBlockSize + (x.addr - (t.addr + 32)))
        (k := s.lastBlockSize + (x.addr - t.addr))
      omega
    · rw [hA]
      dsimp only [List.headD_cons]
      rw [i64_add]
      have hright := i64_eq_iff
        (n := s.lastBlockSize + (x.addr - (t.addr + 32))
          + (t.addr - (w.addr + 32)))
        (k := s.lastBlockSize + (x.addr - w.addr))
      omega

-- =============================================================== the spans

theorem upTo_union {a b e : Int} (hab : a ≤ b) (hbe : b ≤ e) :
    upTo a b ∪ upTo b e = upTo a e :=
  Set.Ico_union_Ico_eq_Ico hab hbe

theorem covered_eq {p e : Int} (hend : blockEnd s p = some e) :
    covered s p = upTo p e := by
  ext y
  constructor
  · intro hy
    obtain ⟨e', hend', hy⟩ := hy
    obtain rfl := Option.some.inj (hend.symm.trans hend')
    exact hy
  · exact fun hy => ⟨e, hend, hy⟩

/-- Blocks in a row cover one interval. -/
theorem covered_run {C : List Header} {z : Header} {e : Int}
    (hr : Row s.mem (A ++ (C ++ z :: B))) (hend : blockEnd s z.addr = some e)
    (hle : z.addr ≤ e) : ⋃ g ∈ C ++ [z], covered s g.addr
      = upTo (nextOf (C ++ [z])) e := by
  induction C generalizing A with
  | nil =>
      simp only [List.nil_append, List.mem_singleton, Set.iUnion_iUnion_eq_left]
      exact covered_eq hend
  | cons c C ih =>
      have hrest := ih (A := A ++ [c]) (by simpa using hr)
      -- `c` ends where the next header is
      obtain ⟨b, E, hE⟩ : ∃ b E, C ++ z :: B = b :: E := by
        cases C <;> exact ⟨_, _, rfl⟩
      have hb : nextOf (C ++ [z]) = b.addr := by
        cases C <;> cases hE <;> rfl
      have hz : z ∈ b :: E := hE ▸ by simp
      rw [List.cons_append, hE] at hr
      have hbz : b.addr ≤ e := by
        rcases List.mem_cons.mp hz with rfl | hz
        · exact hle
        · have := hr.shift.behind z hz
          omega
      have hcb := hr.behind b List.mem_cons_self
      have hc : blockEnd s c.addr = some b.addr := by
        rw [blockEnd, hr.size, Option.map_some]
        dsimp only [List.head?_cons, Option.map_some, gap, BLOCK_HEADER]
        congr 1
        omega
      calc ⋃ g ∈ c :: (C ++ [z]), covered s g.addr
          = covered s c.addr ∪ ⋃ g ∈ C ++ [z], covered s g.addr := by
            simp only [List.mem_cons, Set.iUnion_or, Set.iUnion_union_distrib,
              Set.iUnion_iUnion_eq_left]
        _ = upTo c.addr b.addr ∪ upTo b.addr e := by
            rw [covered_eq hc, hrest, hb]
        _ = upTo c.addr e :=
            upTo_union (by omega) hbz

/-- The group covers one interval, from its lowest block to where its
highest one ends. -/
theorem covered_group (hr : Row s.mem (A ++ t :: B)) (hok : Accounts s A B) :
    ∃ e, blockEnd s (highest t B).addr = some e
      ∧ ⋃ g ∈ group A t B, covered s g.addr = upTo (lowest A t).addr e := by
  obtain ⟨C, hC, hr₁⟩ := hr.at_highest
  obtain ⟨D, hD, -⟩ := hr.at_lowest
  have hfirst : nextOf (C ++ [highest t B]) = (lowest A t).addr := by
    rw [← hC, hD]
    rfl
  refine ⟨_, by rw [blockEnd, hr₁.size]; rfl, ?_⟩
  rw [hC, ← hfirst]
  refine covered_run (by simpa using hr₁) (by rw [blockEnd, hr₁.size]; rfl) ?_
  dsimp only [BLOCK_HEADER]
  cases hrest : restOf B with
  | nil =>
      -- only the last block has its size from the record
      rcases restOf_eq_nil hrest with rfl | ⟨x, rfl, hx⟩
      case inl =>
        have hlast : s.lastBlockSize = _ := hok
        rw [List.head?_nil, Option.map_none, gap, hlast]
        split
        · omega
        · unfold BLOCK_HEADER
          omega
      case inr => exact absurd hx hok
  | cons b rest =>
      have := hr₁.behind b (by simp [hrest])
      dsimp only [List.head?_cons, Option.map_some, gap]
      omega

-- ============================================================== the result

/-- `my_coalesce` joins a block with its FREE neighbours exactly if the
recorded size accounts for it. -/
theorem joins_iff (h : Headers s (A ++ t :: B)) :
    (∃ j s', myCoalesce s t.addr = some (j.addr, s') ∧ Joined s A t B j s')
      ↔ Accounts s A B := by
  obtain ⟨s', hrun, hkept, hr', hlast⟩ := myCoalesce_row h.row
  have hsame : restOf B ≠ [] → s'.lastBlockSize = s.lastBlockSize :=
    fun hB => hlast.trans (if_neg hB)
  have hends : blockEnd s' (lowest A t).addr = blockEnd s (highest t B).addr
      ↔ Accounts s A B := by
    by_cases hB : restOf B = []
    · exact ends_last_iff h.row hr' h.length hlast hB
    · exact iff_of_true (ends_behind h.row hr' hB) (accounts_of_behind hB)
  obtain ⟨hlow, hle⟩ := h.row.lowest_le
  obtain ⟨hhigh, hge⟩ := h.row.le_highest
  constructor
  · intro hjoined
    obtain ⟨j, s'', hrun', hj⟩ := hjoined
    obtain ⟨haddr, rfl⟩ := Prod.mk.inj (Option.some.inj (hrun.symm.trans hrun'))
    obtain ⟨g, hg, hmax, hend⟩ := hj.ends
    have hg' : g.addr = (highest t B).addr :=
      Int.le_antisymm (hge g hg) (hmax _ hhigh)
    rw [← haddr, hg'] at hend
    exact hends.mp hend
  · intro hok
    have hend := hends.mpr hok
    obtain ⟨e, he, hcovers⟩ := covered_group h.row hok
    refine ⟨lowest A t, s', hrun, hlow, hle, ⟨?_, hr', ?_⟩,
      ⟨_, hhigh, hge, hend⟩, ?_, fun q => size_kept h.row hr' hsame⟩
    · obtain ⟨C, hC, -⟩ := h.row.at_lowest
      rw [hkept.head, h.head, ← split_group, hC]
      cases frontOf A <;> rfl
    · rw [hkept.size]
      exact h.length
    · rw [covered_eq (hend.trans he), hcovers]

/-- The theorem for the second of four FREE blocks. -/
theorem joins_iff_both : ∃ c j s',
    Lib.run (client fun _ _ => True) [.alloc 9 8, .alloc 9 8, .alloc 9 8,
        .free 9 65616 0, .free 9 65656 0, .free 9 65696 0] (opened 64) = some c
      ∧ Headers c.heap ([⟨65584, FREE⟩] ++ ⟨65624, FREE⟩
        :: [⟨65664, FREE⟩, ⟨65704, FREE⟩])
      ∧ Accounts c.heap [⟨65584, FREE⟩] [⟨65664, FREE⟩, ⟨65704, FREE⟩]
      ∧ myCoalesce c.heap 65624 = some (j.addr, s')
      ∧ Joined c.heap [⟨65584, FREE⟩] ⟨65624, FREE⟩
        [⟨65664, FREE⟩, ⟨65704, FREE⟩] j s' := by
  let c := (Lib.run (client fun _ _ => True) [.alloc 9 8, .alloc 9 8,
    .alloc 9 8, .free 9 65616 0, .free 9 65656 0, .free 9 65696 0]
    (opened 64)).get (by decide +kernel)
  have hchain : Chain c.heap.mem [⟨65584, 65624, true⟩, ⟨65624, 65664, true⟩,
      ⟨65664, 65704, true⟩, ⟨65704, NULL, true⟩] := by decide +kernel
  have hheaders : Headers c.heap ([⟨65584, FREE⟩] ++ ⟨65624, FREE⟩
      :: [⟨65664, FREE⟩, ⟨65704, FREE⟩]) :=
    ⟨by decide +kernel, hchain.row, by decide +kernel⟩
  obtain ⟨j, s', hrun, hjoined⟩ := (joins_iff hheaders).mpr trivial
  exact ⟨c, j, s', (Option.some_get _).symm, hheaders, trivial, hrun, hjoined⟩

/-- The header of the last block, absorbed by the first one, is lost. -/
theorem header_lost : ¬∀ (s : State) (A B : List Header) (t : Header),
    Headers s (A ++ t :: B) →
    ∃ j s', myCoalesce s t.addr = some (j.addr, s') ∧ Joined s A t B j s' := by
  intro hall
  let c := (Lib.run (client fun _ _ => True) [.alloc 9 8, .free 9 65616 0]
    (opened 24)).get (by decide +kernel)
  have hchain : Chain c.heap.mem
      [⟨65584, 65624, true⟩, ⟨65624, NULL, true⟩] := by decide +kernel
  obtain ⟨j, s', hrun, hj⟩ := hall c.heap [] [⟨65624, FREE⟩] ⟨65584, FREE⟩
    ⟨by decide +kernel, hchain.row, by decide +kernel⟩
  let r := (myCoalesce c.heap 65584).get (by decide +kernel)
  have hr : myCoalesce c.heap 65584 = some (r.1, r.2) :=
    (Option.some_get _).symm
  obtain ⟨hjr, rfl⟩ := Prod.mk.inj (Option.some.inj (hr.symm.trans hrun))
  obtain ⟨g, hg, hmax, hend⟩ := hj.ends
  have hmember : g = ⟨65584, FREE⟩ ∨ g = ⟨65624, FREE⟩ := by
    simpa [group, freeLast, freeFirst] using hg
  rw [← hjr] at hend
  rcases hmember with rfl | rfl
  · exact absurd (hmax ⟨65624, FREE⟩ (by decide)) (by decide)
  · have hne : blockEnd r.2 r.1 ≠ blockEnd c.heap 65624 := by decide +kernel
    exact hne hend

end OperatingSystem.Heap
