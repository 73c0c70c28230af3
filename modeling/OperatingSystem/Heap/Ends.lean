/-
The loops over the free list end.

`next_free` leads from block to block with nothing to say that it does not
lead back. In a heap that is in order it leads to a FREE block further on in
the chain (`Threaded`), so it comes to an end, and with it the scan of
`Mem_Alloc`, `Mem_Dump` and, because merging shortens what is still to come,
`coalesce_all`.

A loop that has not ended after more iterations than there are blocks has
no result, and neither has one that faults: the theorem says that all of
them have one.
-/
import OperatingSystem.Heap.Fresh
import OperatingSystem.Heap.Steady

namespace OperatingSystem.Heap

open Lib (Words Reach Anything firstListed lastListed Threaded NoneListed)

variable {s s' : State} {c : Config} {A B L : List Block} {t b : Block}
  {p q size : Int} {fuel : Nat} {nodes : List Int}

-- ========================================================== the free list

/-- The nodes of the free list from `p` on. -/
inductive FreeNodes (s : State) : (p : Int) → (nodes : List Int) → Prop
  | nil : FreeNodes s NULL []
  | cons {p q : Int} {nodes : List Int} : s.mem.Mapped p →
      s.mem.Mapped (p + 24) → p ≠ NULL → s.nextFree p = some q →
      FreeNodes s q nodes → FreeNodes s p (p :: nodes)

/-- A thread from `p` on has its nodes in front of it, in the order of the
chain. -/
theorem Inv.freeNodes_from (h : Inv s L) (hL : L = A ++ B)
    (hp : p = NULL ∨ p = firstListed NULL B) :
    ∃ nodes, FreeNodes s p nodes ∧ nodes.Sublist (B.map Lib.Cell.addr) := by
  induction B generalizing A p with
  | nil =>
      obtain rfl : p = NULL := hp.elim id id
      exact ⟨[], .nil, .refl _⟩
  | cons t rest ih =>
      by_cases hnull : p = NULL
      · subst hnull
        exact ⟨[], .nil, List.nil_sublist _⟩
      have hp := hp.resolve_left hnull
      have hrest : L = (A ++ [t]) ++ rest := by simpa using hL
      cases ht : t.listed with
      | false =>
          rw [firstListed, ht, if_neg Bool.false_ne_true] at hp
          obtain ⟨nodes, hnodes, hsub⟩ := ih hrest (.inr hp)
          exact ⟨nodes, hnodes, hsub.cons t.addr⟩
      | true =>
          rw [firstListed, if_pos ht] at hp
          subst hp
          have hc := h.chain
          have hthread := h.thread
          rw [hL] at hc hthread
          obtain ⟨-, hlink, -⟩ := Lib.threaded_append.mp hthread
          obtain ⟨nodes, hnodes, hsub⟩ := ih hrest (hlink.imp_right And.right)
          have h₀ := hc.mem.mapped (k := 0) (by decide) (by decide) (by decide)
          rw [Int.add_zero] at h₀
          exact ⟨t.addr :: nodes, .cons h₀
            (hc.mem.mapped (by decide) (by decide) (by decide)) hnull
            (State.nextFree_eq hc.mem) hnodes, hsub.cons_cons t.addr⟩

/-- In a heap that is in order no node comes twice. -/
theorem Inv.freeNodes (h : Inv s L) : ∃ nodes,
    FreeNodes s s.headFree nodes ∧ nodes.Nodup
      ∧ nodes.length ≤ L.length := by
  obtain ⟨nodes, hnodes, hsub⟩ := h.freeNodes_from (A := []) rfl h.headFree
  refine ⟨nodes, hnodes, List.Nodup.sublist hsub ?_, ?_⟩
  · refine h.chain.spaced.imp ?_
    intro a b hab heq
    omega
  · have hle := hsub.length_le
    rwa [List.length_map] at hle

theorem size_of_readable (h : Readable s.mem p) :
    ∃ size, getBlockSize s p = some size := by
  unfold getBlockSize State.next
  rcases h with rfl | hmapped
  · exact ⟨_, if_pos rfl⟩
  · rw [Words.load_of_mapped hmapped]
    simp only [Option.bind_eq_bind, Option.bind_some]
    split
    · exact ⟨_, rfl⟩
    · split <;> exact ⟨_, rfl⟩

-- =========================================================== the searches

theorem rank_ends {c : Choice} (hl : Readable s.mem c.largest)
    (hm : Readable s.mem c.secondLargest) (curr available : Int) :
    ∃ c', rank s curr available c = some c' := by
  obtain ⟨sizeOfLargest, hsl⟩ := size_of_readable hl
  obtain ⟨sizeOfSecond, hsm⟩ := size_of_readable hm
  unfold rank
  rw [hsl, hsm]
  simp only [Option.bind_eq_bind, Option.bind_some]
  split
  · exact ⟨_, rfl⟩
  · split <;> exact ⟨_, rfl⟩

theorem scan_ends (h : FreeNodes s p nodes) : ∀ {fuel : Nat} (temp1 : Int)
    {c : Choice}, nodes.length < fuel → Readable s.mem c.largest →
    Readable s.mem c.secondLargest →
    ∃ c', scan s size fuel p temp1 c = some c' := by
  induction h with
  | nil =>
      intro fuel temp1 c hfuel _ _
      cases fuel with
      | zero => exact absurd hfuel (Nat.not_lt_zero _)
      | succ fuel => exact ⟨c, if_pos rfl⟩
  | @cons p q nodes hmapped hhigh hne hnext hnodes ih =>
      intro fuel temp1 c hfuel hl hm
      cases fuel with
      | zero => exact absurd hfuel (Nat.not_lt_zero _)
      | succ fuel =>
          obtain ⟨available, hsize⟩ := size_of_readable (p := p) (.inr hmapped)
          obtain ⟨c₁, hrank⟩ := rank_ends hl hm p (Lib.i32 available)
          obtain ⟨hl₁, hm₁⟩ := readable_rank hl hm (.inr hmapped) hrank
          rw [scan, if_neg hne]
          simp only [Option.bind_eq_bind]
          rw [hsize, Option.bind_some, hrank, Option.bind_some, hnext,
            Option.bind_some]
          refine ih p (Nat.lt_of_succ_lt_succ hfuel) ?_ ?_
          · split
            · exact hl₁
            · exact hl₁
          · split
            · exact hm₁
            · exact hm₁

/-- `Mem_Alloc`'s search, whichever way it goes. -/
theorem Inv.search_ends (h : Inv s L) (hl : Readable s.mem s.largest)
    (hm : Readable s.mem s.secondLargest) (hfuel : L.length < fuel)
    (size : Int) : ∃ c, search s fuel size = some c := by
  obtain ⟨nodes, hnodes, -, hlen⟩ := h.freeNodes
  have hscan : ∀ {c : Choice}, Readable s.mem c.largest →
      Readable s.mem c.secondLargest →
      ∃ c', scan s size fuel s.headFree NULL c = some c' :=
    scan_ends hnodes NULL (by omega)
  have hhead : Readable s.mem s.headFree := by
    generalize s.headFree = p at hnodes
    cases hnodes with
    | nil => exact .inl rfl
    | cons hmapped => exact .inr hmapped
  unfold search
  split
  case isTrue hboth =>
    obtain ⟨sizeOfLargest, hsl⟩ := size_of_readable hl
    obtain ⟨sizeOfSecond, hsm⟩ := size_of_readable hm
    simp only [Option.bind_eq_bind]
    rw [hsl, hsm, Option.bind_some, Option.bind_some]
    split
    case isTrue =>
      obtain ⟨A, t, B, rfl, heq⟩ := mem_shapes (h.cached hboth.1 hboth.2)
      have haddr : s.largest = t.addr := congrArg Prod.fst heq
      rw [haddr, State.prev_eq h.chain, Option.bind_some]
      rcases nearestFree_eq fuel h.chain with hfound | ⟨-, hle⟩
      · rw [hfound]
        exact ⟨_, rfl⟩
      · rw [List.length_append] at hfuel
        omega
    case isFalse => exact hscan hl hm
  case isFalse => exact hscan hhead hhead

theorem dumpFrom_ends (h : FreeNodes s p nodes) : ∀ {fuel : Nat},
    nodes.length < fuel → ∃ lines, dumpFrom s fuel p = some lines := by
  induction h with
  | nil =>
      intro fuel hfuel
      cases fuel with
      | zero => exact absurd hfuel (Nat.not_lt_zero _)
      | succ fuel => exact ⟨[], if_pos rfl⟩
  | @cons p q nodes hmapped hhigh hne hnext hnodes ih =>
      intro fuel hfuel
      cases fuel with
      | zero => exact absurd hfuel (Nat.not_lt_zero _)
      | succ fuel =>
          obtain ⟨size, hsize⟩ := size_of_readable (p := p) (.inr hmapped)
          obtain ⟨lines, hlines⟩ := ih (Nat.lt_of_succ_lt_succ hfuel)
          unfold dumpFrom State.status
          rw [if_neg hne, Words.load_of_mapped hhigh]
          simp only [Option.map_some, Option.bind_eq_bind, Option.bind_some]
          rw [hsize, Option.bind_some, hnext, Option.bind_some, hlines]
          exact ⟨_, rfl⟩

-- ======================================================== the global pass

theorem Merges.behind_le {A' B' : List Block} {t' : Block}
    (h : Merges A t B A' t' B') : B'.length ≤ B.length := by
  cases h with
  | neither => exact Nat.le_refl _
  | next => exact Nat.le_succ _
  | prev => exact Nat.le_refl _
  | both => exact Nat.le_succ _

/-- A pass ends: what is still to come of the chain gets shorter with each
block. -/
theorem coalesceFrom_ends : ∀ {fuel : Nat} {s : State} {A B : List Block}
    {t : Block}, Chain s.mem (A ++ t :: B) →
    Threaded NULL NULL (A ++ t :: B) → B.length + 1 < fuel →
    ∃ s', coalesceFrom fuel t.addr s = some s' := by
  intro fuel
  induction fuel with
  | zero => intro s A B t _ _ hfuel; exact absurd hfuel (Nat.not_lt_zero _)
  | succ fuel ih =>
      intro s A B t hc hthread hfuel
      -- where `next_free` leads, the rest of the pass ends
      have hnext : ∀ {s' : State} {A' B' : List Block} {t' : Block},
          Chain s'.mem (A' ++ t' :: B') →
          Threaded NULL NULL (A' ++ t' :: B') → B'.length ≤ B.length →
          ∃ s'', ((s'.nextFree t'.addr).bind fun nextFree =>
            coalesceFrom fuel nextFree s') = some s'' := by
        intro s' A' B' t' hc' hthread' hle
        obtain ⟨-, hlink, -⟩ := Lib.threaded_append.mp hthread'
        rw [State.nextFree_eq hc'.mem, Option.bind_some]
        by_cases hnull : t'.link = NULL
        · cases fuel with
          | zero => omega
          | succ fuel => exact ⟨s', if_pos hnull⟩
        · obtain ⟨D, d, E, rfl, -, -, heq⟩ := exists_of_first hnull
            (hlink.imp_right And.right)
          rw [List.length_append, List.length_cons] at hle
          rw [heq]
          rw [← List.cons_append, ← List.append_assoc] at hc' hthread'
          exact ih hc' hthread' (by omega)
      rw [coalesceFrom, if_neg hc.mem.ne_null, State.status_eq hc.mem]
      simp only [Option.bind_eq_bind, Option.bind_some]
      split
      case isTrue hfree =>
        have ht : t.listed = true := by
          cases hl : t.listed with
          | true => rfl
          | false =>
              rw [statusOf, hl] at hfree
              exact absurd hfree (by decide)
        obtain ⟨A', t', B', s', hm, hrun, -, hc', -⟩ := myCoalesce_eq hc
        rw [hrun, Option.bind_some]
        exact hnext hc' (hm.threaded ht hthread) hm.behind_le
      case isFalse => exact hnext hc hthread (Nat.le_refl _)

theorem Inv.coalesceAll_ends (h : Inv s L) (hfuel : L.length + 1 < fuel) :
    ∃ s', coalesceAll fuel s = some s' := by
  have hpass : ∃ s₁, coalesceFrom fuel s.head s = some s₁ := by
    rw [h.head]
    cases L with
    | nil =>
        cases fuel with
        | zero => exact absurd hfuel (Nat.not_lt_zero _)
        | succ fuel => exact ⟨s, if_pos rfl⟩
    | cons t rest =>
        rw [List.length_cons] at hfuel
        exact coalesceFrom_ends (A := []) h.chain h.thread (by omega)
  obtain ⟨s₁, hrun⟩ := hpass
  unfold Heap.coalesceAll
  rw [if_neg (not_not.mpr h.ready), Option.bind_eq_bind, hrun,
    Option.bind_some]
  exact ⟨_, rfl⟩

-- =============================================================== all runs

/-- The cached pointers can be read. -/
def CachedReadable (s : State) : Prop :=
  Readable s.mem s.largest ∧ Readable s.mem s.secondLargest

theorem Steady.cachedReadable (h : Steady s s') (hs : CachedReadable s) :
    CachedReadable s' :=
  ⟨h.readable.mpr (h.largest hs.1 hs.2),
    h.readable.mpr (h.secondLargest hs.1 hs.2)⟩

theorem readable_memFree {ptr coalesce r : Int} (hs : CachedReadable s)
    (hrun : memFree fuel s ptr coalesce = some (r, s')) :
    CachedReadable s' := by
  unfold memFree at hrun
  simp only [Option.bind_eq_bind] at hrun
  split at hrun
  case isTrue =>
    split at hrun
    case isTrue =>
      obtain ⟨s₁, hall, hrun⟩ := Option.bind_eq_some_iff.mp hrun
      obtain ⟨-, rfl⟩ := Prod.mk.inj (Option.some.inj hrun)
      exact (steady_coalesceAll hall).cachedReadable hs
    case isFalse =>
      obtain ⟨-, rfl⟩ := Prod.mk.inj (Option.some.inj hrun)
      exact hs
  case isFalse =>
    obtain ⟨s₁, hpending, hrun⟩ := Option.bind_eq_some_iff.mp hrun
    obtain ⟨valid, -, hrun⟩ := Option.bind_eq_some_iff.mp hrun
    have hs₁ := (steady_pendingCoalesce hpending).cachedReadable hs
    generalize hs₂ : (if coalesce = 0 then
      { s₁ with needGlobalCoalesce := TRUE } else s₁) = s₂ at hrun
    have hs₂ : CachedReadable s₂ := by
      rw [← hs₂]
      split
      · exact hs₁
      · exact hs₁
    split at hrun
    case isTrue =>
      rcases steady_freeBlock hrun with ⟨rfl, -⟩ | ⟨k, s₃, -, -, hgive, hs₃⟩
      · exact hs₂
      · have h₃ := (steady_giveBack hgive).cachedReadable hs₂
        exact hs₃.cachedReadable h₃
    case isFalse =>
      obtain ⟨-, rfl⟩ := Prod.mk.inj (Option.some.inj hrun)
      exact hs₂

/-- The cached pointers can be read in every state of any run. -/
theorem reach_readable {starts : Env → Int → Prop} {ok : Act → Config → Prop}
    (h : Reach (client starts) ok c) : CachedReadable c.heap := by
  refine h.invariant (I := fun c => CachedReadable c.heap) ?_ ?_
  · intro c hstart
    obtain ⟨-, -, env, s, size, -, hrun⟩ := hstart
    obtain ⟨-, -, -, hl, hm⟩ := memInit_start hrun
    exact ⟨.inl hl, .inl hm⟩
  · intro a c c' hs _ hstep
    cases a with
    | alloc fuel size =>
        obtain ⟨-, p, heap, hrun, rfl⟩ := step_alloc hstep
        exact (steady_memAlloc hrun).1.cachedReadable hs
    | free fuel ptr coalesce =>
        obtain ⟨-, r, heap, hrun, rfl⟩ := step_free hstep
        exact readable_memFree hs hrun
    | write a v =>
        obtain ⟨-, heap, hstore, rfl⟩ := step_write hstep
        exact (steady_store hstore).1.cachedReadable hs

/-- In a run of careful calls the free list has no node twice, and as many
iterations as it needs are enough for each of the loops over it. -/
theorem loops_end (h : Reach (client fun _ _ => True) Careful c) :
    (∃ nodes, FreeNodes c.heap c.heap.headFree nodes ∧ nodes.Nodup)
      ∧ ∃ enough, ∀ fuel, enough ≤ fuel →
        (∀ size, ∃ choice, search c.heap fuel size = some choice)
        ∧ (∃ lines, memDump fuel c.heap = some lines)
        ∧ ∃ s', coalesceAll fuel c.heap = some s' := by
  obtain ⟨hl, hm⟩ := reach_readable h
  obtain ⟨L, hinv, -, -⟩ := keeps_true.sound (fun _ _ _ _ _ _ _ => trivial) h
  obtain ⟨nodes, hnodes, hnodup, hlen⟩ := hinv.freeNodes
  refine ⟨⟨nodes, hnodes, hnodup⟩, L.length + 2, fun fuel hfuel => ⟨?_, ?_, ?_⟩⟩
  · exact hinv.search_ends hl hm (by omega)
  · unfold memDump
    rw [if_neg (not_not.mpr hinv.ready)]
    exact dumpFrom_ends hnodes (by omega)
  · exact hinv.coalesceAll_ends (by omega)

/-- The theorem with one live block between two FREE ones. -/
theorem loops_end_freed : ∃ c, Reach (client fun _ _ => True) Careful c
    ∧ c.live = [(65656, 8)]
    ∧ ∃ nodes, FreeNodes c.heap c.heap.headFree nodes ∧ nodes.Nodup := by
  let acts : List Act := [.alloc 9 8, .alloc 9 8]
  let c := (Lib.run (client fun _ _ => True) acts (opened 40)).get
    (by decide +kernel)
  let c' := (step (.free 9 65616 0) c).get (by decide +kernel)
  let c₁ := (step (.alloc 9 8) (opened 40)).get (by decide +kernel)
  have hreach : Reach (client fun _ _ => True) Careful c := by
    refine ⟨_, start_opened trivial (by decide +kernel) (by decide +kernel),
      Lib.run_steps acts ⟨fun _ => ⟨?_, trivial⟩, fun s' hs' =>
        ⟨fun _ => ⟨?_, trivial⟩, fun _ _ => trivial⟩⟩ (Option.some_get _).symm⟩
    · exact (allocOk_of_search (by decide) (by decide +kernel)
        (by decide +kernel)).1
    · have hc₁ : s' = c₁ := Option.some.inj
        (hs'.symm.trans (Option.some_get (x := step (.alloc 9 8) (opened 40))
          (by decide +kernel)).symm)
      rw [hc₁]
      exact (allocOk_of_search (by decide) (by decide +kernel)
        (by decide +kernel)).1
  have hok : Careful (.free 9 65616 0) c := freeOk_zero
  have hreach' : Reach (client fun _ _ => True) Careful c' :=
    hreach.step hok (Option.some_get _).symm
  exact ⟨c', hreach', by decide +kernel, (loops_end hreach').1⟩

/-- A block that is taken whole behind another FREE one stays on the list,
and is put there again when it is freed: it then leads to itself. -/
theorem free_list_loops : ∃ c p, Reach (client fun _ _ => True) Anything c
    ∧ (∃ q, c.heap.headFree = q ∧ c.heap.nextFree q = some p)
    ∧ p ≠ NULL ∧ c.heap.nextFree p = some p
    ∧ ∀ fuel, memDump fuel c.heap = none := by
  let c := (Lib.run (client fun _ _ => True)
    [.alloc 9 8, .free 9 65616 0, .alloc 9 9, .free 9 65656 0]
    (opened 24)).get (by decide +kernel)
  have hreach : Reach (client fun _ _ => True) Anything c :=
    Lib.reach_of_run _
      (start_opened trivial (by decide +kernel) (by decide +kernel))
      (Option.some_get _).symm
  have hloop : c.heap.nextFree 65624 = some 65624 := by decide +kernel
  have hhead : c.heap.nextFree 65584 = some 65624 := by decide +kernel
  -- the loop is at the block that leads to itself, and stays there
  have hstuck : ∀ fuel, dumpFrom c.heap fuel 65624 = none := by
    intro fuel
    induction fuel with
    | zero => rfl
    | succ fuel ih =>
        rw [dumpFrom, if_neg (by decide)]
        simp only [Option.bind_eq_bind, hloop, Option.bind_some, ih]
        simp
  refine ⟨c, 65624, hreach, ⟨65584, by decide +kernel, hhead⟩, by decide,
    hloop, fun fuel => ?_⟩
  unfold memDump
  split
  case isTrue => rfl
  case isFalse =>
    rw [show c.heap.headFree = 65584 by decide +kernel]
    cases fuel with
    | zero => rfl
    | succ fuel =>
        rw [dumpFrom, if_neg (by decide)]
        simp only [Option.bind_eq_bind, hhead, Option.bind_some, hstuck]
        simp

end OperatingSystem.Heap
