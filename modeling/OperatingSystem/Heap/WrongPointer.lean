/-
Frees of what is not allocated.

`Mem_Free` means to leave at a block that is FREE already, but the statement
there names a value and does not return it. So the block is put behind its
predecessor on the free list a second time, and what the predecessor leads
to is the block: from then on its `next_free` is its own address. Only a
block whose size is taken for an error escapes.

A pointer from outside the region is turned away by `is_valid_addr`, as far
as that looks: its range starts behind `*global_head` and is as long as the
whole mapping, so it ends 48 bytes too late, and up to there the status of a
header is read that is not mapped.
-/
import OperatingSystem.Heap.Inserted

namespace OperatingSystem.Heap

open Lib (Words firstListed lastLink relink Unbroken)

variable {s s' s₁ : State} {A B L : List Block} {t : Block} {fuel : Nat}
  {p r : Int}

/-- `p` is the payload address of a FREE block, or outside the region. -/
def WrongPointer (s : State) (L : List Block) (p : Int) : Prop :=
  (∃ t ∈ L, t.listed = true ∧ p = t.addr + BLOCK_HEADER)
    ∨ p < s.globalHead ∨ s.globalHead + s.actualSize ≤ p

/-- The chain, every status and the free list are as they were, and so are
the ledger and the cached pointers. -/
structure LeftAlone (s s' : State) (L : List Block) : Prop where
  heap : WellFormed s' L
  remainingSize : s'.remainingSize = s.remainingSize
  lastBlockSize : s'.lastBlockSize = s.lastBlockSize
  largest : s'.largest = s.largest
  secondLargest : s'.secondLargest = s.secondLargest

/-- The pointer is turned away, or the block's size is taken for an error. -/
def TurnedAway (s : State) (p : Int) : Prop :=
  isValidAddr s p = some false
    ∨ isValidAddr s p = some true
      ∧ getBlockSize s (getHeader p) = some RETURN_WITH_ERROR

instance : Decidable (TurnedAway s p) := by
  unfold TurnedAway
  infer_instance

-- ===================================================== a block listed twice

theorem giveBack_free {size : Int} (h : Chain s.mem (A ++ t :: B))
    (ht : t.listed = true) : giveBack s t.addr size = some s := by
  have hstatus : statusOf t = FREE := by rw [statusOf, ht]; rfl
  unfold giveBack
  rw [State.status_eq h.mem, Option.bind_eq_bind, Option.bind_some, hstatus]
  exact if_neg (by decide)

/-- The list leads from in front of a FREE block to the block. -/
theorem WellFormed.leads_here (h : WellFormed s (A ++ t :: B))
    (ht : t.listed = true) : lastLink s.headFree A = t.addr := by
  obtain ⟨hA, -, -⟩ := Lib.unbroken_append.mp h.unbroken
  have hfirst : firstListed NULL (t :: B) = t.addr := by
    rw [firstListed, if_pos ht]
  rw [hfirst] at hA
  refine hA.lastLink ?_
  rw [h.headFree, Lib.firstListed_append, hfirst]

/-- A FREE block that is freed leads to itself. -/
theorem WellFormed.freeBlock_again (h : WellFormed s (A ++ t :: B))
    (ht : t.listed = true)
    (hsize : blockSize s.lastBlockSize t B ≠ RETURN_WITH_ERROR)
    (hrun : freeBlock fuel s t.addr 0 = some (r, s')) :
    Chain s'.mem (relink t.addr A ++ ⟨t.addr, t.addr, true⟩ :: B)
      ∧ s'.head = s.head := by
  unfold freeBlock at hrun
  rw [getBlockSize_eq h.chain] at hrun
  simp only [Option.bind_eq_bind, Option.bind_some] at hrun
  rw [if_neg hsize, giveBack_free h.chain ht, Option.bind_some, coalesceFreed,
    if_neg (not_not.mpr rfl), Option.bind_some] at hrun
  dsimp only at hrun
  rw [setStatus_same h.chain ht, Option.bind_some, decide_true,
    Bool.true_or] at hrun
  obtain ⟨s₁, hlist, hrun⟩ := Option.bind_eq_some_iff.mp hrun
  obtain ⟨s₂, hre, hrun⟩ := Option.bind_eq_some_iff.mp hrun
  obtain ⟨-, rfl⟩ := Prod.mk.inj (Option.some.inj hrun)
  obtain ⟨l, m, rfl, -⟩ := recache_eq hre
  rcases enlist_eq fuel h.chain true with ⟨hnone, -⟩ | ⟨m', hsome, hed⟩
  · cases hnone.symm.trans hlist
  · obtain rfl := Option.some.inj (hsome.symm.trans hlist)
    rw [if_pos rfl, h.leads_here ht, ht] at hed
    exact ⟨hed.chain, rfl⟩

/-- That is not where it led. -/
theorem WellFormed.not_again (h : WellFormed s (A ++ t :: B))
    (h' : WellFormed s' (A ++ t :: B))
    (hchain : Chain s'.mem (relink t.addr A ++ ⟨t.addr, t.addr, true⟩ :: B))
    (hhead : s'.head = s.head) : False := by
  have hstart : s'.head
      = firstAddr (relink t.addr A ++ ⟨t.addr, t.addr, true⟩ :: B) := by
    rw [hhead, h.head]
    exact firstAddr_eq_of_addrs (by simp [addrs_relink])
  have heq := h'.eq_of_chain hchain hstart
  obtain ⟨-, hself, -⟩ := h.chain.split_unique heq rfl
  obtain ⟨-, hlink, -⟩ := Lib.unbroken_append.mp h.unbroken
  rw [hself, if_pos rfl] at hlink
  exact h.chain.firstListed_ne hlink.symm

-- ============================================================ turned away

/-- What is turned away changes nothing. -/
theorem WellFormed.turned_away (h : WellFormed s L) (hp : p ≠ NULL)
    (haway : TurnedAway s p) :
    ∃ r s', memFree fuel s p 0 = some (r, s') ∧ LeftAlone s s' L := by
  have hsame : LeftAlone s { s with needGlobalCoalesce := TRUE } L :=
    ⟨⟨h.ready, h.chain, h.head, h.unbroken, h.headFree⟩, rfl, rfl, rfl, rfl⟩
  rcases haway with hvalid | ⟨hvalid, hsize⟩
  · refine ⟨RETURN_WITH_ERROR, _, ?_, hsame⟩
    rw [memFree_later hp, hvalid, Option.bind_some,
      if_neg Bool.false_ne_true]
  · refine ⟨0, _, ?_, hsame⟩
    have hsize' : getBlockSize { s with needGlobalCoalesce := TRUE }
        (getHeader p) = some RETURN_WITH_ERROR := hsize
    rw [memFree_later hp, hvalid, Option.bind_some, if_pos rfl, freeBlock,
      hsize', Option.bind_eq_bind, Option.bind_some, if_pos rfl]

/-- Of the addresses outside the region only the one right behind it can
pass for valid. -/
theorem Region.valid_end (hr : Region s) (hvalid : isValidAddr s p = some true)
    (hout : p < s.globalHead ∨ s.globalHead + s.actualSize ≤ p) :
    p = s.globalHead + s.actualSize := by
  unfold isValidAddr at hvalid
  split at hvalid
  case isTrue => cases hvalid
  case isFalse =>
    split at hvalid
    case isFalse => cases hvalid
    case isTrue hin =>
      obtain ⟨status, hstatus, -⟩ := Option.bind_eq_some_iff.mp hvalid
      obtain ⟨word, hword, -⟩ := Option.map_eq_some_iff.mp hstatus
      obtain ⟨⟨-, hend, -⟩, -⟩ := Words.load_eq_some hword
      rw [hr.base, hr.size] at hend
      rw [hr.head] at hin
      unfold getHeader BLOCK_HEADER at hend
      unfold GLOBAL_SIZE at hin
      omega

/-- A free without coalescing of a FREE block, or of an address outside the
region, changes nothing if the pointer is turned away, and only then. The
second half leaves out the address right behind the region: the header in
front of it is what the client has written there. -/
theorem wrong_pointer_iff (h : WellFormed s L) (hr : Region s) (hp : p ≠ NULL)
    (hwrong : WrongPointer s L p) :
    (TurnedAway s p →
        ∃ r s', memFree fuel s p 0 = some (r, s') ∧ LeftAlone s s' L)
      ∧ (p ≠ s.globalHead + s.actualSize →
        (∃ r s', memFree fuel s p 0 = some (r, s') ∧ LeftAlone s s' L) →
        TurnedAway s p) := by
  refine ⟨h.turned_away hp, fun hend hout => ?_⟩
  obtain ⟨r, s', hrun, hsame⟩ := hout
  rw [memFree_later hp] at hrun
  obtain ⟨valid, hvalid, hrun⟩ := Option.bind_eq_some_iff.mp hrun
  cases valid with
  | false => exact .inl hvalid
  | true =>
      rcases hwrong with ⟨t, hmem, ht, rfl⟩ | hout
      · refine .inr ⟨hvalid, ?_⟩
        obtain ⟨A, B, rfl⟩ := List.append_of_mem hmem
        rw [if_pos rfl, getHeader_payload] at hrun
        rw [getHeader_payload, getBlockSize_eq h.chain]
        by_contra hsize
        have hflag : WellFormed { s with needGlobalCoalesce := TRUE }
            (A ++ t :: B) :=
          ⟨h.ready, h.chain, h.head, h.unbroken, h.headFree⟩
        obtain ⟨hchain, hhead⟩ := hflag.freeBlock_again ht
          (fun herror => hsize (congrArg some herror)) hrun
        exact h.not_again hsame.heap hchain hhead
      · exact absurd (hr.valid_end hvalid hout) hend

/-- The theorem after a block of 8 bytes has been freed. A pointer in front of
the region is turned away. The block itself is not, and so no free of it
leaves the heap alone. -/
theorem wrong_pointer_iff_freed : ∃ (c : Config) (L : List Block),
    Lib.run (client fun _ _ => True) [.alloc 9 8, .free 9 65616 0]
      (opened 24) = some c
    ∧ WrongPointer c.heap L 8 ∧ TurnedAway c.heap 8
    ∧ (∃ r s', memFree 9 c.heap 8 0 = some (r, s') ∧ LeftAlone c.heap s' L)
    ∧ WrongPointer c.heap L 65616 ∧ ¬TurnedAway c.heap 65616
    ∧ (memFree 9 c.heap 65616 0).isSome
    ∧ ¬∃ r s', memFree 9 c.heap 65616 0 = some (r, s')
      ∧ LeftAlone c.heap s' L := by
  let c := (Lib.run (client fun _ _ => True) [.alloc 9 8, .free 9 65616 0]
    (opened 24)).get (by decide +kernel)
  have hwf : WellFormed c.heap
      [⟨65584, 65624, true⟩, ⟨65624, NULL, true⟩] := by decide +kernel
  have hregion : Region c.heap := by decide +kernel
  have hbelow : WrongPointer c.heap
      [⟨65584, 65624, true⟩, ⟨65624, NULL, true⟩] 8 :=
    .inr (.inl (by decide +kernel))
  have hfreed : WrongPointer c.heap
      [⟨65584, 65624, true⟩, ⟨65624, NULL, true⟩] 65616 :=
    .inl ⟨⟨65584, 65624, true⟩, by simp, rfl, by decide⟩
  have haway : TurnedAway c.heap 8 := by decide +kernel
  have htaken : ¬TurnedAway c.heap 65616 := by decide +kernel
  exact ⟨c, _, (Option.some_get _).symm, hbelow, haway,
    (wrong_pointer_iff hwf hregion (by decide) hbelow).1 haway, hfreed, htaken,
    by decide +kernel, fun hout => htaken
      ((wrong_pointer_iff hwf hregion (by decide) hfreed).2
        (by decide +kernel) hout)⟩

/-- A block that is freed twice leads to itself. -/
theorem freed_twice : ¬∀ (s : State) (L : List Block) (p : Int) (fuel : Nat),
    WellFormed s L → Region s → CachedReadable s → p ≠ NULL →
    WrongPointer s L p → L.length < fuel →
    ∃ r s', memFree fuel s p 0 = some (r, s') ∧ LeftAlone s s' L := by
  intro hall
  let c := (Lib.run (client fun _ _ => True) [.alloc 9 8, .free 9 65616 0]
    (opened 24)).get (by decide +kernel)
  obtain ⟨r, s', hrun, hsame⟩ := hall c.heap
    [⟨65584, 65624, true⟩, ⟨65624, NULL, true⟩] 65616 9 (by decide +kernel)
    (by decide +kernel) ⟨.inr (by decide +kernel), .inr (by decide +kernel)⟩
    (by decide) (.inl ⟨⟨65584, 65624, true⟩, by simp, rfl, by decide⟩)
    (by decide)
  have hself : (memFree 9 c.heap 65616 0).all fun r =>
      decide (r.2.nextFree 65584 = some 65584) := by decide +kernel
  rw [hrun, Option.all_some, decide_eq_true_iff] at hself
  have hholds : Holds s'.mem ⟨65584, 65624, true⟩ :=
    hsame.heap.chain.holds _ (by simp)
  have hnext := State.nextFree_eq hholds
  exact absurd (hself.symm.trans hnext) (by decide)

end OperatingSystem.Heap
