/-
What the global pass, `Mem_Free(NULL, 1)`, makes of a well-formed heap.

# The pass

`coalesce_all` starts at the first header and goes on along `next_free`. The
`next_free` of an ALLOCATED block is `NULL`, so if the first block is
ALLOCATED the pass is over at once and merges nothing. If it is FREE the pass
reaches every FREE block that is left: a block absorbs the next one, and if
more FREE blocks follow, the next of them is absorbed into it in turn. In
front of the place where the pass is no two FREE blocks are next to each
other (`coalesceFrom_pass`).

# Once more

A second pass merges nothing. But `my_coalesce` adds the size of the block to
`last_block_size` whenever that block is the last one, whether it has absorbed
another one or not, and the size of the last block is `last_block_size`: on a
FREE last block each pass doubles it. So a second pass changes nothing only if
the last block is ALLOCATED, or if what the first one has made of
`last_block_size` is 0. The FREE blocks at the end of the chain are merged in
pairs, so what it makes of it depends on whether their number is odd
(`finalSize`).
-/
import Mathlib.Data.List.Chain
import OperatingSystem.Heap.Rejoined

namespace OperatingSystem.Heap

open Lib (Words i64 firstListed NoneListed Unbroken)

variable {s s' s₁ s₂ : State} {A A' B B' C D L L' L₁ : List Block}
  {t t' w x : Block} {fuel : Nat} {a p q y size last : Int}

-- =========================================================== vocabulary

/-- No two FREE blocks are next to each other. -/
def Settled (L : List Block) : Prop :=
  L.IsChain fun a b => ¬(a.listed = true ∧ b.listed = true)

/-- All blocks are FREE. -/
def AllFree (L : List Block) : Prop := ∀ b ∈ L, b.listed = true

/-- Every ALLOCATED block of `L` is one of `L'`, with the same header behind
it. -/
def Untouched (L L' : List Block) : Prop :=
  ∀ A t B, L = A ++ t :: B → t.listed = false →
    ∃ A' B', L' = A' ++ t :: B' ∧ firstAddr B' = firstAddr B

/-- No header of `L` is at `y`. -/
def Outside (L : List Block) (y : Int) : Prop :=
  ∀ b ∈ L, y < b.addr ∨ b.addr + 32 ≤ y

/-- Chain `L'` in `s'` is chain `L` in `s` with its FREE blocks merged. No
ALLOCATED block has moved, grown or been written to, and another pass changes
nothing. -/
structure Coalesced (fuel : Nat) (s s' : State) (L L' : List Block) :
    Prop where
  wellFormed : WellFormed s' L'
  settled : Settled L'
  sub : (shapes L').Sublist (shapes L)
  untouched : Untouched L L'
  lastBlock : LastTaken L → s'.lastBlockSize = s.lastBlockSize
  words : ∀ y, Outside L y → s'.mem.word y = s.mem.word y
  again : memFree fuel s' NULL 1 = some (RETURN_SUCCESS, s')

/-- `last_block_size`, not yet cut to its width, once a FREE block `w` has
absorbed all of `rest`, two at a time. -/
def pairedSize (last : Int) (w : Block) (rest : List Block) : Int :=
  if rest.length % 2 = 1 then 2 * last + (lastAddr rest - (w.addr + 32))
  else last + (lastAddr rest - (w.addr + 64))

/-- The same where `t :: rest` are the FREE blocks at the end of the chain. -/
def finalSize (last : Int) (t : Block) : List Block → Int
  | [] => 2 * last
  | [x] => last + (x.addr - (t.addr + 32))
  | _ :: rest => pairedSize last t rest

/-- The pass goes right. -/
structure Coalesces (s : State) (L : List Block) : Prop where
  /-- It does not reach a FREE block if the first block is ALLOCATED, -/
  first : FirstTaken L → Settled L
  /-- and `last_block_size` stays 0 if it comes to a FREE last block. -/
  last : ¬FirstTaken L → ∀ A t B, L = A ++ t :: B → LastTaken A →
    AllFree (t :: B) → (18446744073709551616 : Int)
      ∣ finalSize s.lastBlockSize t B

-- ============================================================ the vocabulary

theorem Untouched.refl (L : List Block) : Untouched L L :=
  fun A _ B hL _ => ⟨A, B, hL, rfl⟩

theorem Untouched.trans (h : Untouched L L₁) (h' : Untouched L₁ L') :
    Untouched L L' := by
  intro A t B hL ht
  obtain ⟨A₁, B₁, hL₁, hfirst⟩ := h A t B hL ht
  obtain ⟨A', B', hL', hfirst'⟩ := h' A₁ t B₁ hL₁ ht
  exact ⟨A', B', hL', hfirst'.trans hfirst⟩

theorem settled_none (h : NoneListed L) : Settled L := by
  induction L with
  | nil => exact List.isChain_nil
  | cons b rest ih =>
      refine List.isChain_cons.mpr ⟨fun c _ hboth => ?_,
        ih fun c hc => h c (List.mem_cons_of_mem _ hc)⟩
      rw [h b List.mem_cons_self] at hboth
      cases hboth.1

theorem AllFree.cons_iff : AllFree (t :: B) ↔ t.listed = true ∧ AllFree B :=
  List.forall_mem_cons

/-- What a merge leaves in front of the place where the pass is. -/
theorem Merges.settled (h : Merges A t B A' t' B') (hA : Settled A) :
    Settled (A' ++ [t']) := by
  have hlast : ∀ {u : Block}, LastTaken A → Settled (A ++ [u]) := by
    intro u htaken
    refine hA.append (List.isChain_singleton _) fun a ha b _ hboth => ?_
    rw [htaken a ha] at hboth
    cases hboth.1
  -- the merged block is FREE as the previous one was
  have hprev : ∀ {w w' : Block}, w'.listed = w.listed →
      Settled (A' ++ [w]) → Settled (A' ++ [w']) := by
    intro w w' hw hset
    obtain ⟨hA', -, hjoin⟩ := List.isChain_append.mp hset
    refine hA'.append (List.isChain_singleton _) fun a ha b hb => ?_
    obtain rfl := Option.some.inj hb
    rw [hw]
    exact hjoin a ha w rfl
  cases h with
  | neither _ _ _ htaken => exact hlast htaken
  | next _ _ _ _ htaken => exact hlast htaken
  | prev _ w => exact hprev (w := w) rfl hA
  | both _ w => exact hprev (w := w) rfl hA

/-- The pass goes on behind ALLOCATED blocks. -/
theorem Settled.skip (h : Settled (A ++ [t])) (hD : NoneListed D) :
    Settled (A ++ t :: D) := by
  rw [← List.singleton_append, ← List.append_assoc]
  refine h.append (settled_none hD) fun a _ b hb hboth => ?_
  rw [hD b (List.mem_of_mem_head? hb)] at hboth
  cases hboth.2

/-- FREE blocks are replaced by one block at the first of them. -/
theorem untouched_join (hC : AllFree C) (hne : C ≠ [])
    (hfirst : firstAddr C = t'.addr) :
    Untouched (A ++ (C ++ B)) (A ++ t' :: B) := by
  intro X u Y heq hu
  have hnot : u ∉ C := by
    intro hmem
    rw [hC u hmem] at hu
    cases hu
  rcases List.append_eq_append_iff.mp heq with ⟨D, rfl, hD⟩ | ⟨D, rfl, hD⟩
  · rcases List.append_eq_append_iff.mp hD with ⟨E, rfl, hE⟩ | ⟨E, rfl, hE⟩
    · exact ⟨A ++ t' :: E, Y, by rw [hE]; simp, rfl⟩
    · cases E with
      | nil => exact ⟨A ++ [t'], Y, by rw [← List.nil_append B, ← hE]; simp,
          rfl⟩
      | cons e E =>
          obtain ⟨rfl, -⟩ := List.cons.inj hE
          exact absurd (by simp) hnot
  · cases D with
    | nil =>
        cases C with
        | nil => exact absurd rfl hne
        | cons c C =>
            obtain ⟨rfl, -⟩ := List.cons.inj hD
            exact absurd List.mem_cons_self hnot
    | cons d D =>
        obtain ⟨rfl, rfl⟩ := List.cons.inj hD
        refine ⟨X, D ++ t' :: B, by simp, ?_⟩
        cases D with
        | nil =>
            cases C with
            | nil => exact absurd rfl hne
            | cons c C => exact hfirst.symm
        | cons d D => rfl

/-- ALLOCATED blocks are where they were, in front of what they were. -/
theorem Merges.untouched (h : Merges A t B A' t' B') (ht : t.listed = true) :
    Untouched (A ++ t :: B) (A' ++ t' :: B') := by
  cases h with
  | neither => exact .refl _
  | next _ _ x _ _ hx =>
      refine untouched_join (C := [t, x]) ?_ (List.cons_ne_nil _ _) rfl
      exact AllFree.cons_iff.mpr ⟨ht, AllFree.cons_iff.mpr ⟨hx, nofun⟩⟩
  | prev _ w _ _ hw =>
      rw [List.append_assoc]
      refine untouched_join (C := [w, t]) ?_ (List.cons_ne_nil _ _) rfl
      exact AllFree.cons_iff.mpr ⟨hw, AllFree.cons_iff.mpr ⟨ht, nofun⟩⟩
  | both _ w _ x _ hw hx =>
      rw [List.append_assoc]
      refine untouched_join (C := [w, t, x]) ?_ (List.cons_ne_nil _ _) rfl
      exact AllFree.cons_iff.mpr ⟨hw, AllFree.cons_iff.mpr
        ⟨ht, AllFree.cons_iff.mpr ⟨hx, nofun⟩⟩⟩

-- ================================================================ one visit

theorem lastTaken_behind (ht : t.listed = true) :
    LastTaken (A ++ t :: B) ↔ B ≠ [] ∧ LastTaken B := by
  unfold LastTaken
  rcases List.eq_nil_or_concat B with rfl | ⟨D, w, rfl⟩
  · refine iff_of_false (fun h => ?_) fun h => h.1 rfl
    rw [h t List.getLast?_concat] at ht
    cases ht
  · rw [List.concat_eq_append, ← List.cons_append, ← List.append_assoc,
      List.getLast?_concat, List.getLast?_concat]
    simp

/-- `my_coalesce` writes to headers only. -/
theorem myCoalesce_frame (h : Chain s.mem (A ++ t :: B))
    (hrun : myCoalesce s t.addr = some (q, s'))
    (hy : Outside (A ++ t :: B) y) : s'.mem.word y = s.mem.word y := by
  obtain ⟨s₁, next, curSize, size, h₁, h₂⟩ := myCoalesce_halves h hrun
  obtain ⟨t₁, haddr, hc₁, -⟩ := absorbNext_leaves h h₁
  rw [← growLast_mem s₁ next curSize] at hc₁
  have ht := hy t (by simp)
  have hbehind : ∀ b ∈ (behind B).head?, y ≠ b.addr + 8 := by
    intro b hb
    have hmem : b ∈ B := by
      cases B with
      | nil => cases hb
      | cons x rest =>
          rw [behind] at hb
          split at hb
          · exact List.mem_cons_of_mem _ (List.mem_of_mem_head? hb)
          · exact List.mem_of_mem_head? hb
    have := hy b (by simp [hmem])
    omega
  have hfirst : s₁.mem.word y = s.mem.word y :=
    absorbNext_word h h₁ (by omega) (by omega) hbehind
  rw [← hfirst, ← growLast_mem s₁ next curSize]
  rw [← haddr] at h₂
  by_cases hA : LastTaken A
  · rw [absorbIntoPrev_taken hc₁ hA] at h₂
    rw [(Prod.mk.inj (Option.some.inj h₂)).2]
  · obtain ⟨D, w, rfl, hw⟩ := exists_prev hA
    have := hy w (by simp)
    exact absorbIntoPrev_word hc₁ hw h₂ (by omega) (by omega) hbehind

/-- What a part of the pass has made of chain `L`. -/
structure Passing (s s' : State) (L L' : List Block) : Prop where
  kept : Kept s s'
  chain : Chain s'.mem L'
  unbroken : Unbroken NULL NULL L'
  head : firstAddr L' = firstAddr L
  headFree : firstListed NULL L' = firstListed NULL L
  sub : (shapes L').Sublist (shapes L)
  untouched : Untouched L L'
  lastTaken : LastTaken L' ↔ LastTaken L
  lastBlock : LastTaken L → s'.lastBlockSize = s.lastBlockSize
  words : ∀ y, Outside L y → s'.mem.word y = s.mem.word y

theorem Passing.outside (h : Passing s s' L L') (hy : Outside L y) :
    Outside L' y := by
  intro b hb
  have hmem : (b.addr, b.listed) ∈ shapes L' := List.mem_map_of_mem hb
  obtain ⟨c, hc, heq⟩ := List.mem_map.mp (h.sub.subset hmem)
  rw [← (Prod.mk.inj heq).1]
  exact hy c hc

theorem Passing.trans (h : Passing s s₁ L L₁) (h' : Passing s₁ s' L₁ L') :
    Passing s s' L L' where
  kept := h.kept.trans h'.kept
  chain := h'.chain
  unbroken := h'.unbroken
  head := h'.head.trans h.head
  headFree := h'.headFree.trans h.headFree
  sub := h'.sub.trans h.sub
  untouched := h.untouched.trans h'.untouched
  lastTaken := h'.lastTaken.trans h.lastTaken
  lastBlock hlast :=
    (h'.lastBlock (h.lastTaken.mpr hlast)).trans (h.lastBlock hlast)
  words y hy := (h'.words y (h.outside hy)).trans (h.words y hy)

/-- The pass on one FREE block: it is merged, and the pass goes on at the
first FREE block behind the merged one. -/
theorem coalesceFrom_step (hc : Chain s.mem (A ++ t :: B))
    (hL : Unbroken NULL NULL (A ++ t :: B)) (ht : t.listed = true) :
    ∃ A' t' B' s₁, Merges A t B A' t' B'
      ∧ Passing s s₁ (A ++ t :: B) (A' ++ t' :: B')
      ∧ s₁.lastBlockSize = coalescedSize s.lastBlockSize A t B B'
      ∧ myCoalesce s t.addr = some (t'.addr, s₁)
      ∧ ∀ fuel, coalesceFrom (fuel + 1) t.addr s
        = coalesceFrom fuel (firstListed NULL B') s₁ := by
  obtain ⟨A', t', B', s₁, hm, hrun, hkept, hc₁, hlast⟩ := myCoalesce_eq hc
  have hL₁ := hm.unbroken ht hL
  have ht' := hm.listed ht
  -- an ALLOCATED last block is behind whatever has been absorbed
  have hbehind : B' ≠ [] ∧ LastTaken B' ↔ B ≠ [] ∧ LastTaken B := by
    rw [hm.behind_eq]
    by_cases hB : FirstTaken B
    · rw [behind_taken hB]
    · obtain ⟨x, rest, rfl, hx⟩ := exists_next hB
      rw [behind_free hx, ← lastTaken_behind (A := []) hx, List.nil_append,
        and_iff_right (List.cons_ne_nil _ _)]
  refine ⟨A', t', B', s₁, hm, ⟨hkept, hc₁, hL₁, hm.firstAddr_eq,
    hm.firstListed_eq ht, hm.sublist, hm.untouched ht, ?_, fun htaken => ?_,
    fun y hy => myCoalesce_frame hc hrun hy⟩, hlast, hrun, fun fuel => ?_⟩
  · rw [lastTaken_behind ht, lastTaken_behind ht', hbehind]
  · rw [lastTaken_behind ht, ← hbehind] at htaken
    rw [hlast, coalescedSize, if_neg htaken.1]
  · obtain ⟨-, hlink, -⟩ := Lib.unbroken_append.mp hL₁
    rw [if_pos ht'] at hlink
    rw [coalesceFrom, if_neg hc.mem.ne_null, State.status_eq hc.mem]
    simp only [Option.bind_eq_bind, Option.bind_some]
    rw [statusOf, if_pos ht, if_pos rfl, hrun, Option.bind_some,
      State.nextFree_eq hc₁.mem, Option.bind_some, hlink]

-- ============================================================= the whole pass

/-- In front of the pass no two FREE blocks are next to each other, and the
pass ends. -/
theorem coalesceFrom_pass : ∀ {fuel : Nat} {s : State} {A B : List Block}
    {t : Block}, Chain s.mem (A ++ t :: B) →
    Unbroken NULL NULL (A ++ t :: B) → t.listed = true → Settled A →
    B.length + 1 < fuel →
    ∃ s' L', coalesceFrom fuel t.addr s = some s'
      ∧ Passing s s' (A ++ t :: B) L' ∧ Settled L' := by
  intro fuel
  induction fuel with
  | zero => intro s A B t _ _ _ _ hfuel; exact absurd hfuel (Nat.not_lt_zero _)
  | succ fuel ih =>
      intro s A B t hc hL ht hA hfuel
      obtain ⟨A', t', B', s₁, hm, hpass, -, -, hrun⟩ :=
        coalesceFrom_step hc hL ht
      have hset := hm.settled hA
      have hle := hm.behind_le
      rw [hrun]
      rcases Lib.exists_first B' with hnone | ⟨D, d, E, rfl, hd, hD⟩
      · rw [Lib.firstListed_none hnone]
        cases fuel with
        | zero => omega
        | succ fuel =>
            exact ⟨s₁, _, if_pos rfl, hpass, hset.skip hnone⟩
      · rw [Lib.firstListed_split hd hD]
        have hc₁ := hpass.chain
        have hL₁ := hpass.unbroken
        rw [← List.cons_append, ← List.append_assoc] at hc₁ hL₁ hpass
        rw [List.length_append, List.length_cons] at hle
        obtain ⟨s', L', hrun', hpass', hset'⟩ :=
          ih hc₁ hL₁ hd (hset.skip hD) (by omega)
        exact ⟨s', L', hrun', hpass.trans hpass', hset'⟩

-- ============================================================== once more

/-- Between ALLOCATED blocks nothing is merged. -/
theorem Merges.apart (h : Merges A t B A' t' B') (hA : LastTaken A)
    (hB : FirstTaken B) : A' = A ∧ t' = t ∧ B' = B := by
  cases h with
  | neither => exact ⟨rfl, rfl, rfl⟩
  | next _ _ x _ _ hx => exact absurd hB (not_firstTaken hx)
  | prev _ w _ _ hw => exact absurd hA (not_lastTaken hw)
  | both _ w _ _ _ hw => exact absurd hA (not_lastTaken hw)

/-- There `my_coalesce` only records a size, if the block is the last one. -/
theorem myCoalesce_apart (h : Chain s.mem (A ++ t :: B)) (hA : LastTaken A)
    (hB : FirstTaken B) (hrun : myCoalesce s t.addr = some (q, s')) :
    ∃ last, s' = { s with lastBlockSize := last }
      ∧ (B ≠ [] → last = s.lastBlockSize)
      ∧ (B = [] → last = i64 (s.lastBlockSize + s.lastBlockSize)) := by
  obtain ⟨A', t', B', s'', hm, hrun', -, -, hlast⟩ := myCoalesce_eq h
  obtain ⟨rfl, rfl, rfl⟩ := hm.apart hA hB
  obtain ⟨rfl, rfl⟩ := Prod.mk.inj (Option.some.inj (hrun.symm.trans hrun'))
  obtain ⟨s₁, next, curSize, size, h₁, h₂⟩ := myCoalesce_halves h hrun
  rw [absorbNext_taken h hB] at h₁
  obtain rfl := Option.some.inj h₁
  rw [absorbIntoPrev_taken (by rw [growLast_mem]; exact h) hA] at h₂
  obtain ⟨-, rfl⟩ := Prod.mk.inj (Option.some.inj h₂)
  have hself : growLast s next curSize = { s with
      lastBlockSize := (growLast s next curSize).lastBlockSize } := by
    unfold growLast
    split <;> rfl
  refine ⟨_, hself, fun hne => ?_, fun hnil => ?_⟩
  · rw [hlast, coalescedSize, if_neg hne]
  · subst hnil
    rw [hlast, coalescedSize_taken hA, blockSize]

theorem Settled.apart (h : Settled (A ++ t :: B)) (ht : t.listed = true) :
    LastTaken A ∧ FirstTaken B := by
  obtain ⟨-, htB, hjoin⟩ := List.isChain_append.mp h
  constructor
  · intro a ha
    by_contra hfree
    exact hjoin a ha t rfl ⟨Bool.not_eq_false _ ▸ hfree, ht⟩
  · intro b hb
    by_contra hfree
    exact (List.isChain_cons.mp htB).1 b hb ⟨ht, Bool.not_eq_false _ ▸ hfree⟩

/-- A pass over a chain without FREE neighbours doubles `last_block_size` if
it comes to the last block, and does nothing else. -/
theorem coalesceFrom_settled : ∀ {fuel : Nat} {s : State} {A B : List Block}
    {t : Block}, Chain s.mem (A ++ t :: B) →
    Unbroken NULL NULL (A ++ t :: B) → t.listed = true →
    Settled (A ++ t :: B) → B.length + 1 < fuel →
    ∃ last, coalesceFrom fuel t.addr s = some { s with lastBlockSize := last }
      ∧ (LastTaken (A ++ t :: B) → last = s.lastBlockSize)
      ∧ (¬LastTaken (A ++ t :: B) →
        last = i64 (s.lastBlockSize + s.lastBlockSize)) := by
  intro fuel
  induction fuel with
  | zero => intro s A B t _ _ _ _ hfuel; exact absurd hfuel (Nat.not_lt_zero _)
  | succ fuel ih =>
      intro s A B t hc hL ht hset hfuel
      obtain ⟨hA, hB⟩ := hset.apart ht
      obtain ⟨A', t', B', s₁, hm, hpass, -, hcall, hrun⟩ :=
        coalesceFrom_step hc hL ht
      obtain ⟨rfl, rfl, rfl⟩ := hm.apart hA hB
      obtain ⟨last, rfl, hkeep, hgrow⟩ := myCoalesce_apart hc hA hB hcall
      rw [hrun]
      rcases Lib.exists_first B' with hnone | ⟨D, d, E, rfl, hd, hD⟩
      · rw [Lib.firstListed_none hnone]
        cases fuel with
        | zero => omega
        | succ fuel =>
            refine ⟨last, if_pos rfl, fun htaken => ?_, fun hfree => ?_⟩
            · exact hkeep ((lastTaken_behind ht).mp htaken).1
            · refine hgrow ?_
              by_contra hne
              exact hfree ((lastTaken_behind ht).mpr ⟨hne, fun b hb =>
                hnone b (List.mem_of_getLast? hb)⟩)
      · rw [Lib.firstListed_split hd hD]
        obtain rfl := hkeep (by simp)
        rw [← List.cons_append, ← List.append_assoc] at hc hL hset ⊢
        rw [List.length_append, List.length_cons] at hfuel
        exact ih hc hL hd hset (by omega)

-- ======================================================= the last block's size

theorem coalesceFrom_null (hrun : coalesceFrom fuel NULL s = some s') :
    s' = s := by
  cases fuel with
  | zero => cases hrun
  | succ fuel =>
      rw [coalesceFrom, if_pos rfl] at hrun
      exact (Option.some.inj hrun).symm

theorem pairedSize_one :
    pairedSize last w [t] = 2 * last + (t.addr - (w.addr + 32)) := if_pos rfl

theorem pairedSize_two :
    pairedSize last w [t, x] = last + (x.addr - (w.addr + 64)) :=
  if_neg (show ¬2 % 2 = 1 by decide)

theorem finalSize_cons (haddr : t'.addr = t.addr) :
    finalSize last t (x :: w :: C) = pairedSize last t' (w :: C) := by
  unfold pairedSize
  rw [haddr]
  rfl

theorem pairedSize_cons (haddr : t'.addr = w.addr) (hne : C ≠ []) :
    pairedSize last w (t :: x :: C) = pairedSize last t' C := by
  obtain ⟨y, rest, rfl⟩ := List.exists_cons_of_ne_nil hne
  have hlast : lastAddr (t :: x :: y :: rest) = lastAddr (y :: rest) := rfl
  unfold pairedSize
  rw [hlast, haddr]
  simp only [List.length_cons]
  congr 1
  simp only [eq_iff_iff]
  omega

/-- The FREE blocks that end the chain are absorbed two at a time. -/
theorem coalesceFrom_pairs : ∀ {fuel : Nat} {s s' : State} {A B : List Block}
    {w t : Block}, Chain s.mem ((A ++ [w]) ++ t :: B) →
    Unbroken NULL NULL ((A ++ [w]) ++ t :: B) → w.listed = true →
    AllFree (t :: B) → coalesceFrom fuel t.addr s = some s' →
    s'.lastBlockSize = i64 (pairedSize s.lastBlockSize w (t :: B)) := by
  intro fuel
  induction fuel with
  | zero => intro s s' A B w t _ _ _ _ hrun; cases hrun
  | succ fuel ih =>
      intro s s' A B w t hc hL hw hfree hrun
      obtain ⟨ht, hB⟩ := AllFree.cons_iff.mp hfree
      obtain ⟨A', t', B', s₁, hm, hpass, hlast, -, hstep⟩ :=
        coalesceFrom_step hc hL ht
      obtain ⟨rfl, haddr, ht'⟩ := hm.into_prev hw
      rw [hstep] at hrun
      have hbehind := hm.behind_eq
      match B, hB with
      | [], _ =>
          obtain rfl : B' = [] := hbehind
          obtain rfl := coalesceFrom_null hrun
          rw [hlast, coalescedSize_free hw, Lib.i64_add]
          rw [pairedSize_one, blockSize]
          refine congrArg i64 ?_
          omega
      | [x], hB =>
          obtain ⟨hx, -⟩ := AllFree.cons_iff.mp hB
          rw [behind_free hx] at hbehind
          subst hbehind
          obtain rfl := coalesceFrom_null hrun
          rw [hlast, coalescedSize_free hw, Lib.i64_add]
          rw [pairedSize_two, blockSize]
          refine congrArg i64 ?_
          omega
      | x :: y :: rest, hB =>
          obtain ⟨hx, hB⟩ := AllFree.cons_iff.mp hB
          rw [behind_free hx] at hbehind
          subst hbehind
          rw [firstListed, if_pos (hB y List.mem_cons_self)] at hrun
          rw [ih hpass.chain.shift (by simpa using hpass.unbroken) ht' hB hrun,
            hlast, coalescedSize, if_neg (List.cons_ne_nil _ _),
            pairedSize_cons haddr (List.cons_ne_nil _ _)]

/-- The first of them absorbs the next one alone. -/
theorem coalesceFrom_run (hc : Chain s.mem (A ++ t :: B))
    (hL : Unbroken NULL NULL (A ++ t :: B)) (hA : LastTaken A)
    (hfree : AllFree (t :: B)) (hrun : coalesceFrom fuel t.addr s = some s') :
    s'.lastBlockSize = i64 (finalSize s.lastBlockSize t B) := by
  obtain ⟨ht, hB⟩ := AllFree.cons_iff.mp hfree
  obtain ⟨A', t', B', s₁, hm, hpass, hlast, -, hstep⟩ :=
    coalesceFrom_step hc hL ht
  obtain ⟨rfl, haddr⟩ : A' = A ∧ t'.addr = t.addr := by
    rcases hm.front with ⟨rfl, haddr, -⟩ | ⟨w, rfl, hw, -⟩
    · exact ⟨rfl, haddr⟩
    · exact absurd hA (not_lastTaken hw)
  cases fuel with
  | zero => cases hrun
  | succ fuel =>
      rw [hstep] at hrun
      have hbehind := hm.behind_eq
      match B, hB with
      | [], _ =>
          obtain rfl : B' = [] := hbehind
          obtain rfl := coalesceFrom_null hrun
          rw [hlast, coalescedSize_taken hA, blockSize, finalSize]
          refine congrArg i64 ?_
          omega
      | [x], hB =>
          obtain ⟨hx, -⟩ := AllFree.cons_iff.mp hB
          rw [behind_free hx] at hbehind
          subst hbehind
          obtain rfl := coalesceFrom_null hrun
          rw [hlast, coalescedSize_taken hA, blockSize, finalSize]
      | x :: y :: rest, hB =>
          obtain ⟨hx, hB⟩ := AllFree.cons_iff.mp hB
          rw [behind_free hx] at hbehind
          subst hbehind
          rw [firstListed, if_pos (hB y List.mem_cons_self)] at hrun
          rw [coalesceFrom_pairs hpass.chain.shift
            (by simpa using hpass.unbroken) (hm.listed ht) hB hrun, hlast,
            coalescedSize, if_neg (List.cons_ne_nil _ _),
            finalSize_cons haddr]

/-- The pass comes to the FREE blocks that end the chain at the first of
them. -/
theorem coalesceFrom_last : ∀ {fuel : Nat} {s s' : State}
    {A C R : List Block} {t a : Block},
    Chain s.mem (A ++ t :: (C ++ a :: R)) →
    Unbroken NULL NULL (A ++ t :: (C ++ a :: R)) → t.listed = true →
    C ≠ [] → LastTaken C → AllFree (a :: R) →
    coalesceFrom fuel t.addr s = some s' →
    s'.lastBlockSize = i64 (finalSize s.lastBlockSize a R) := by
  intro fuel
  induction fuel with
  | zero => intro s s' A C R t a _ _ _ _ _ _ hrun; cases hrun
  | succ fuel ih =>
      intro s s' A C R t a hc hL ht hne hC hfree hrun
      obtain ⟨A', t', B', s₁, hm, hpass, hlast, -, hstep⟩ :=
        coalesceFrom_step hc hL ht
      rw [hstep] at hrun
      -- the ALLOCATED block in front of `a` is not absorbed
      obtain ⟨F, rfl, hneF, hF⟩ : ∃ F, B' = F ++ a :: R ∧ F ≠ []
          ∧ LastTaken F := by
        rw [hm.behind_eq]
        obtain ⟨c, C, rfl⟩ := List.exists_cons_of_ne_nil hne
        rw [List.cons_append, behind]
        split
        case isTrue hfreeC =>
          exact ⟨C, rfl, (lastTaken_behind (A := []) hfreeC).mp hC⟩
        case isFalse => exact ⟨c :: C, rfl, hne, hC⟩
      have hsame : s₁.lastBlockSize = s.lastBlockSize := by
        rw [hlast, coalescedSize, if_neg (by simp)]
      rw [← hsame]
      have hc₁ := hpass.chain
      have hL₁ := hpass.unbroken
      rcases Lib.exists_first F with hnone | ⟨D, d, E, rfl, hd, hD⟩
      · rw [Lib.firstListed_split (hfree a List.mem_cons_self) hnone] at hrun
        rw [← List.cons_append, ← List.append_assoc] at hc₁ hL₁
        refine coalesceFrom_run hc₁ hL₁ ?_ hfree hrun
        exact (lastTaken_behind (hm.listed ht)).mpr ⟨hneF, hF⟩
      · obtain ⟨hneE, hE⟩ := (lastTaken_behind hd).mp hF
        rw [List.append_assoc, List.cons_append,
          Lib.firstListed_split hd hD] at hrun
        rw [List.append_assoc, List.cons_append, ← List.cons_append,
          ← List.append_assoc] at hc₁ hL₁
        exact ih hc₁ hL₁ hd hneE hE hfree hrun

/-- A chain that ends with a FREE block ends with all of some such run. -/
theorem exists_run (h : ¬LastTaken L) :
    ∃ A t B, L = A ++ t :: B ∧ LastTaken A ∧ AllFree (t :: B) := by
  induction L with
  | nil => exact absurd nofun h
  | cons b rest ih =>
      by_cases hrest : LastTaken rest
      · cases rest with
        | nil =>
            refine ⟨[], b, [], rfl, nofun, AllFree.cons_iff.mpr ⟨?_, nofun⟩⟩
            by_contra hb
            refine h fun a ha => ?_
            obtain rfl := Option.some.inj ha
            exact Bool.not_eq_true _ ▸ hb
        | cons c rest =>
            refine absurd (fun a ha => ?_) h
            rw [List.getLast?_cons_cons] at ha
            exact hrest a ha
      · obtain ⟨A, t, B, rfl, hA, hfree⟩ := ih hrest
        cases A with
        | nil =>
            cases hb : b.listed with
            | true =>
                exact ⟨[], b, t :: B, rfl, nofun, AllFree.cons_iff.mpr
                  ⟨hb, hfree⟩⟩
            | false =>
                refine ⟨[b], t, B, rfl, fun a ha => ?_, hfree⟩
                obtain rfl := Option.some.inj ha
                exact hb
        | cons c A =>
            refine ⟨b :: c :: A, t, B, rfl, fun a ha => ?_, hfree⟩
            rw [List.getLast?_cons_cons] at ha
            exact hA a ha

theorem AllFree.not_lastTaken (h : AllFree (t :: B)) :
    ¬LastTaken (A ++ t :: B) := by
  intro hlast
  obtain ⟨ht, hB⟩ := AllFree.cons_iff.mp h
  obtain ⟨hne, hlast⟩ := (lastTaken_behind ht).mp hlast
  obtain ⟨b, hb⟩ : ∃ b, B.getLast? = some b :=
    ⟨_, List.getLast?_eq_some_getLast hne⟩
  have htaken := hlast b hb
  rw [hB b (List.mem_of_getLast? hb)] at htaken
  cases htaken

/-- What the pass makes of `last_block_size`. -/
theorem WellFormed.pass_size (h : WellFormed s (A ++ t :: B))
    (hfirst : ¬FirstTaken (A ++ t :: B)) (hA : LastTaken A)
    (hfree : AllFree (t :: B)) (hrun : coalesceFrom fuel s.head s = some s') :
    s'.lastBlockSize = i64 (finalSize s.lastBlockSize t B) := by
  rw [h.head] at hrun
  cases A with
  | nil => exact coalesceFrom_run h.chain h.unbroken nofun hfree hrun
  | cons b A =>
      have hb : b.listed = true := by
        obtain ⟨x, rest, heq, hx⟩ := exists_next hfirst
        rw [(List.cons.inj heq).1]
        exact hx
      obtain ⟨hne, hA⟩ := (lastTaken_behind (A := []) hb).mp hA
      exact coalesceFrom_last (A := []) h.chain h.unbroken hb hne hA hfree hrun

-- ================================================================ the call

theorem WellFormed.memFree_null (h : WellFormed s L) :
    memFree fuel s NULL 1 = (coalesceFrom fuel s.head s).bind fun s =>
      some (RETURN_SUCCESS, { s with needGlobalCoalesce := FALSE }) := by
  rw [memFree, if_pos rfl, if_pos (by decide), coalesceAll,
    if_neg (not_not.mpr h.ready)]
  simp only [Option.bind_eq_bind, Option.bind_assoc, Option.bind_some]

/-- The pass does not get past an ALLOCATED first block. -/
theorem WellFormed.pass_taken (h : WellFormed s L) (hfirst : FirstTaken L)
    (hfuel : L.length + 1 < fuel) : coalesceFrom fuel s.head s = some s := by
  rw [h.head]
  match fuel, L with
  | 0, _ => omega
  | fuel + 1, [] => exact if_pos rfl
  | fuel + 2, b :: rest =>
      obtain ⟨hlink, -⟩ := h.unbroken
      rw [hfirst b rfl, if_neg Bool.false_ne_true] at hlink
      have hc : Chain s.mem ([] ++ b :: rest) := h.chain
      rw [firstAddr_cons, coalesceFrom, if_neg hc.mem.ne_null,
        State.status_eq hc.mem]
      simp only [Option.bind_eq_bind, Option.bind_some]
      rw [statusOf, hfirst b rfl, if_neg Bool.false_ne_true,
        if_neg (by decide), State.nextFree_eq hc.mem, Option.bind_some, hlink]
      exact if_pos rfl

/-- The flag is not part of what makes a heap well formed. -/
theorem WellFormed.reset (h : WellFormed s L) :
    WellFormed { s with needGlobalCoalesce := FALSE } L :=
  ⟨h.ready, h.chain, h.head, h.unbroken, h.headFree⟩

theorem Passing.wellFormed (h : Passing s s₁ L L₁) (hL : WellFormed s L) :
    WellFormed s₁ L₁ where
  ready := by
    unfold State.ready
    rw [h.kept.globalHead]
    exact hL.ready
  chain := h.chain
  head := by rw [h.kept.head, hL.head, h.head]
  unbroken := h.unbroken
  headFree := by rw [h.kept.headFree, hL.headFree, h.headFree]

/-- With a FREE first block: how the call ends, and what a second one changes
then. -/
theorem WellFormed.pass_free (h : WellFormed s L) (hfirst : ¬FirstTaken L)
    (hfuel : L.length + 1 < fuel) :
    ∃ s₁ L₁, coalesceFrom fuel s.head s = some s₁ ∧ Passing s s₁ L L₁
      ∧ Settled L₁ ∧ ∃ last,
        memFree fuel { s₁ with needGlobalCoalesce := FALSE } NULL 1
          = some (RETURN_SUCCESS, { s₁ with
            needGlobalCoalesce := FALSE
            lastBlockSize := last })
        ∧ (LastTaken L → last = s₁.lastBlockSize)
        ∧ (¬LastTaken L →
          last = i64 (s₁.lastBlockSize + s₁.lastBlockSize)) := by
  obtain ⟨b, rest, rfl, hb⟩ := exists_next hfirst
  have hc : Chain s.mem ([] ++ b :: rest) := h.chain
  rw [List.length_cons] at hfuel
  have hfuel' : rest.length + 1 < fuel := by omega
  obtain ⟨s₁, L₁, hrun, hpass, hset⟩ := coalesceFrom_pass hc h.unbroken hb
    List.isChain_nil hfuel'
  refine ⟨s₁, L₁, by rw [h.head]; exact hrun, hpass, hset, ?_⟩
  have hwf₁ := hpass.wellFormed h
  have hlen := hpass.sub.length_le
  rw [shapes, shapes, List.length_map, List.length_map] at hlen
  -- the first block is where it was, and FREE
  obtain ⟨c, rest₁, rfl, hcfree⟩ : ∃ c rest₁, L₁ = c :: rest₁
      ∧ c.listed = true := by
    have hhead := hpass.head
    have hfree := hpass.headFree
    rw [List.nil_append, firstAddr_cons] at hhead
    rw [List.nil_append, firstListed, if_pos hb] at hfree
    cases L₁ with
    | nil => exact absurd hhead.symm hc.mem.ne_null
    | cons c rest₁ =>
        refine ⟨c, rest₁, rfl, ?_⟩
        by_contra hnot
        rw [firstAddr_cons] at hhead
        rw [firstListed, if_neg hnot, ← hhead] at hfree
        exact Chain.firstListed_ne (A := []) hwf₁.chain hfree
  rw [List.length_cons, List.nil_append, List.length_cons] at hlen
  have hfuel₁ : rest₁.length + 1 < fuel := by omega
  obtain ⟨last, hagain, htaken, hfree⟩ := coalesceFrom_settled (A := [])
    (s := { s₁ with needGlobalCoalesce := FALSE }) hwf₁.chain hwf₁.unbroken
    hcfree hset hfuel₁
  refine ⟨last, ?_, fun hlast => htaken ?_, fun hlast => hfree ?_⟩
  · have hhead : s₁.head = c.addr := hwf₁.head
    rw [← hhead] at hagain
    rw [hwf₁.reset.memFree_null, hagain, Option.bind_some]
  · exact hpass.lastTaken.mpr hlast
  · exact fun hlast₁ => hlast (hpass.lastTaken.mp hlast₁)

/-- `Mem_Free(NULL, 1)` merges the FREE blocks of a well-formed heap once and
for all exactly if it `Coalesces`. -/
theorem coalesces_iff (h : WellFormed s L) (hfuel : L.length + 1 < fuel) :
    (∃ r s' L', memFree fuel s NULL 1 = some (r, s')
      ∧ Coalesced fuel s s' L L') ↔ Coalesces s L := by
  rw [h.memFree_null]
  by_cases hfirst : FirstTaken L
  · rw [h.pass_taken hfirst hfuel, Option.bind_some]
    constructor
    · intro hout
      obtain ⟨r, s', L', hrun, hout⟩ := hout
      obtain ⟨-, rfl⟩ := Prod.mk.inj (Option.some.inj hrun)
      obtain rfl := h.reset.unique hout.wellFormed
      exact ⟨fun _ => hout.settled, fun hnot => absurd hfirst hnot⟩
    · intro hok
      refine ⟨_, _, L, rfl, h.reset, hok.first hfirst, .refl _, .refl L,
        fun _ => rfl, fun _ _ => rfl, ?_⟩
      rw [h.reset.memFree_null, h.reset.pass_taken hfirst hfuel,
        Option.bind_some]
  · obtain ⟨s₁, L₁, hrun, hpass, hset, last, hagain, htaken, hfree⟩ :=
      h.pass_free hfirst hfuel
    rw [hrun, Option.bind_some]
    have hwf₁ := (hpass.wellFormed h).reset
    constructor
    · intro hout
      obtain ⟨r, s', L', hrun', hout⟩ := hout
      obtain ⟨-, rfl⟩ := Prod.mk.inj (Option.some.inj hrun')
      refine ⟨fun hnot => absurd hnot hfirst, fun _ A t B hL hA hrunFree => ?_⟩
      subst hL
      have hsame := (Prod.mk.inj (Option.some.inj
        (hagain.symm.trans hout.again))).2
      have hdouble := congrArg State.lastBlockSize hsame
      dsimp only at hdouble
      rw [hfree hrunFree.not_lastTaken, h.pass_size hfirst hA hrunFree hrun,
        Lib.i64_double_iff] at hdouble
      exact hdouble
    · intro hok
      refine ⟨_, _, L₁, rfl, hwf₁, hset, hpass.sub, hpass.untouched,
        hpass.lastBlock, hpass.words, ?_⟩
      have hlast : last = s₁.lastBlockSize := by
        by_cases hL : LastTaken L
        · exact htaken hL
        · obtain ⟨A, t, B, rfl, hA, hrunFree⟩ := exists_run hL
          rw [hfree hL, h.pass_size hfirst hA hrunFree hrun,
            Lib.i64_double_iff]
          exact hok.last hfirst A t B rfl hA hrunFree
      rw [hagain, hlast]

/-- The theorem where the first two of three blocks are FREE. -/
theorem coalesces_iff_behind : ∃ c r s' L',
    Lib.run (client fun _ _ => True) [.alloc 9 8, .alloc 9 8, .alloc 9 48,
        .free 9 65616 0, .free 9 65656 0] (opened 64) = some c
      ∧ Coalesces c.heap [⟨65584, 65624, true⟩, ⟨65624, NULL, true⟩,
        ⟨65664, NULL, false⟩]
      ∧ memFree 9 c.heap NULL 1 = some (r, s')
      ∧ Coalesced 9 c.heap s' [⟨65584, 65624, true⟩, ⟨65624, NULL, true⟩,
        ⟨65664, NULL, false⟩] L' := by
  let c := (Lib.run (client fun _ _ => True) [.alloc 9 8, .alloc 9 8,
    .alloc 9 48, .free 9 65616 0, .free 9 65656 0] (opened 64)).get
    (by decide +kernel)
  have hok : Coalesces c.heap [⟨65584, 65624, true⟩, ⟨65624, NULL, true⟩,
      ⟨65664, NULL, false⟩] := by
    refine ⟨fun hfirst => absurd hfirst (not_firstTaken rfl), ?_⟩
    intro _ A t B hL _ hfree
    refine absurd ?_ (hfree.not_lastTaken (A := A))
    rw [← hL]
    exact fun a ha => Option.some.inj ha ▸ rfl
  have hfuel : [(⟨65584, 65624, true⟩ : Block), ⟨65624, NULL, true⟩,
      ⟨65664, NULL, false⟩].length + 1 < 9 := by decide
  obtain ⟨r, s', L', hrun, hout⟩ := (coalesces_iff (s := c.heap)
    (by decide +kernel) hfuel).mpr hok
  exact ⟨c, r, s', L', (Option.some_get _).symm, hok, hrun, hout⟩

/-- Each pass over the one block of a new heap doubles `last_block_size`. -/
theorem doubles_again : ¬∀ (s : State) (L : List Block) (fuel : Nat),
    WellFormed s L → L.length + 1 < fuel → ∃ r s' L',
    memFree fuel s NULL 1 = some (r, s') ∧ Coalesced fuel s s' L L' := by
  intro hall
  obtain ⟨_, s', _, hrun, hout⟩ := hall (opened 24).heap
    [⟨65584, NULL, true⟩] 9 (by decide +kernel) (by decide)
  let r := (memFree 9 (opened 24).heap NULL 1).get (by decide +kernel)
  let r' := (memFree 9 r.2 NULL 1).get (by decide +kernel)
  have hr : memFree 9 (opened 24).heap NULL 1 = some (r.1, r.2) :=
    (Option.some_get _).symm
  obtain ⟨-, rfl⟩ := Prod.mk.inj (Option.some.inj (hr.symm.trans hrun))
  have hagain : memFree 9 r.2 NULL 1 = some (r'.1, r'.2) :=
    (Option.some_get _).symm
  have hsame := (Prod.mk.inj (Option.some.inj
    (hagain.symm.trans hout.again))).2
  have hdouble : r'.2.lastBlockSize ≠ r.2.lastBlockSize := by decide +kernel
  exact hdouble (congrArg State.lastBlockSize hsame)

end OperatingSystem.Heap
