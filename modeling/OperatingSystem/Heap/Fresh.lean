/-
`Mem_Alloc` hands out FREE blocks only.

Whatever the search chooses is a FREE block of the chain, and the blocks of
the live allocations are ALLOCATED. This rests on the free list and on the
cached largest block, so it holds as long as no call has damaged them.
-/
import OperatingSystem.Heap.Client

namespace OperatingSystem.Heap

open Lib (Reach Anything)

variable {s s' : State} {c : Config} {fuel : Nat} {p size : Int}

/-- Every call spares the free list and the cached pointers. -/
def Careful : Act → Config → Prop :=
  Guarded (fun _ _ => True) (fun _ _ => True) InRange

theorem keeps_true :
    Keeps (fun _ _ => True) (fun _ _ => True) (fun _ _ => True) InRange where
  same _ _ := trivial
  pass _ _ _ _ _ _ := trivial
  range _ _ _ _ hok := hok
  freed _ _ _ _ _ _ _ := trivial
  alloc _ _ _ _ := trivial

/-- The address that `Mem_Alloc` returns is the chosen block's. -/
theorem memAlloc_chosen (hrun : memAlloc fuel s size = some (p, s'))
    (hp : p ≠ NULL) :
    ∃ c, search s fuel (roundTo size BLOCK_SIZE) = some c
      ∧ c.sizeToAllocate ≠ -1 ∧ p = c.nextToAllocate + BLOCK_HEADER := by
  unfold memAlloc at hrun
  split at hrun
  case isTrue => cases hrun
  case isFalse =>
    split at hrun
    case isTrue =>
      exact absurd (Prod.mk.inj (Option.some.inj hrun)).1.symm hp
    case isFalse =>
      obtain ⟨c, hsearch, hrun⟩ := Option.bind_eq_some_iff.mp hrun
      unfold takeBlock at hrun
      simp only [Option.bind_eq_bind] at hrun
      split at hrun
      case isTrue =>
        exact absurd (Prod.mk.inj (Option.some.inj hrun)).1.symm hp
      case isFalse hsome =>
        refine ⟨c, hsearch, hsome, ?_⟩
        obtain ⟨next, -, hrun⟩ := Option.bind_eq_some_iff.mp hrun
        split at hrun
        all_goals
          obtain ⟨s₁, -, hrun⟩ := Option.bind_eq_some_iff.mp hrun
          obtain ⟨s₂, -, hrun⟩ := Option.bind_eq_some_iff.mp hrun
          obtain ⟨s₃, -, hrun⟩ := Option.bind_eq_some_iff.mp hrun
          exact (Prod.mk.inj (Option.some.inj hrun)).1.symm

/-- In a run of careful calls `Mem_Alloc` returns the address of a block
that was FREE, and of no live allocation. -/
theorem hands_out_free
    (h : Reach (client fun _ _ => True) Careful c)
    (hrun : memAlloc fuel c.heap size = some (p, s')) (hp : p ≠ NULL) :
    c.heap.status (getHeader p) = some FREE
      ∧ p ∉ c.live.map Prod.fst := by
  obtain ⟨L, hinv, -, hlive⟩ := keeps_true.sound
    (fun _ _ _ _ _ _ _ => trivial) h
  obtain ⟨choice, hsearch, hsome, rfl⟩ := memAlloc_chosen hrun hp
  obtain ⟨A, t, B, rfl, hc, -⟩ := (search_spec hinv hsearch).2 hsome
  have hheader : getHeader (choice.nextToAllocate + BLOCK_HEADER) = t.addr := by
    rw [hc.block, getHeader]
    omega
  constructor
  · rw [hheader, State.status_eq hinv.chain.mem, statusOf, if_pos hc.free]
  · intro hmem
    obtain ⟨q, hq, hqp⟩ := List.mem_map.mp hmem
    obtain ⟨a, ha, haq, -⟩ := hlive q hq
    have haddr : a = t.addr := by
      rw [hqp, hc.block] at haq
      omega
    have htaken : (t.addr, true) ∈ shapes (A ++ t :: B) := by
      simp [shapes, hc.free]
    rw [haddr] at ha
    cases hinv.chain.shape_unique ha htaken

/-- The theorem where one allocation is live and written to. -/
theorem hands_out_free_second : ∃ c s',
    Lib.run (client fun _ _ => True) [.alloc 9 8, .write 65616 7]
        (opened 24) = some c
      ∧ memAlloc 9 c.heap 8 = some (65656, s')
      ∧ c.heap.status (getHeader 65656) = some FREE
      ∧ 65656 ∉ c.live.map Prod.fst := by
  let acts : List Act := [.alloc 9 8, .write 65616 7]
  let c := (Lib.run (client fun _ _ => True) acts (opened 24)).get
    (by decide +kernel)
  have hrun : Lib.run (client fun _ _ => True) acts (opened 24) = some c :=
    (Option.some_get _).symm
  have hreach : Reach (client fun _ _ => True) Careful c := by
    refine ⟨_, start_opened trivial (by decide +kernel) (by decide +kernel),
      Lib.run_steps acts ⟨fun _ => ⟨?_, trivial⟩, fun _ _ =>
        ⟨trivial, fun _ _ => trivial⟩⟩ hrun⟩
    exact (allocOk_of_search (by decide) (by decide +kernel)
      (by decide +kernel)).1
  let r := (memAlloc 9 c.heap 8).get (by decide +kernel)
  have hr : memAlloc 9 c.heap 8 = some (65656, r.2) := by
    have hfst : r.1 = 65656 := by decide +kernel
    rw [← hfst]
    exact (Option.some_get _).symm
  exact ⟨c, r.2, hrun, hr, hands_out_free hreach hr (by decide)⟩

/-- A block that is taken whole stays on the free list if it is not the
first: here the third request gets what the second one still has. -/
theorem hands_out_live : ¬∀ (c : Config) (fuel : Nat) (size p : Int)
    (s' : State), Reach (client fun _ _ => True) Anything c → 1 ≤ size →
    memAlloc fuel c.heap size = some (p, s') → p ≠ NULL →
    c.heap.status (getHeader p) = some FREE
      ∧ p ∉ c.live.map Prod.fst := by
  intro hall
  let c := (Lib.run (client fun _ _ => True)
    [.alloc 9 8, .free 9 65616 0, .alloc 9 9] (opened 24)).get
    (by decide +kernel)
  have hreach : Reach (client fun _ _ => True) Anything c :=
    Lib.reach_of_run _
      (start_opened trivial (by decide +kernel) (by decide +kernel))
      (Option.some_get _).symm
  let r := (memAlloc 9 c.heap 8).get (by decide +kernel)
  have hlive := (hall c 9 8 r.1 r.2 hreach (by decide)
    (Option.some_get _).symm (by decide +kernel)).2
  exact hlive (by decide +kernel)

end OperatingSystem.Heap
