/-
Waiting on a FINISHED thread.

A FINISHED thread's record stays in `thread_list_head`, so `thread_join`
finds it and lets the caller give up the processor like any other join:
the STOPPED branch of `my_scheduler` appends the caller to the
`suspended_queue` of a thread that will never finish again.

Everything else keeps those queues empty. The FINISHED branch empties the
queue of the thread that ends, and only a join puts a thread into one. So
the runs in which nobody waits for a FINISHED thread are exactly those
whose joins name unfinished threads.
-/
import OperatingSystem.Thread.NoThreadLost

namespace OperatingSystem.Thread

open Lib (Along Reach Way)

variable {policy : Policy} {b : Build} {s s' : Library} {c : Call}

-- ========================================================== the statements

/-- Nobody sits in the `suspended_queue` of a FINISHED thread. -/
def Freed (s : Library) : Prop :=
  ∀ t ∈ s.threadListHead, t.status = .finished → t.suspendedQueue = []

/-- Thread `x` runs or can be chosen. -/
def Runnable (s : Library) (x : Int) : Prop :=
  s.currentActive = some x ∨ x ∈ readyIds s

/-- A thread that joins a FINISHED thread stays runnable. -/
def StaysRunnable (c : Call) (s s' : Library) : Prop :=
  ∀ tid o me, c = .join tid o → s.currentActive = some me →
    Finished s tid → Runnable s' me

/-- Call `c` leaves nobody waiting on a FINISHED thread. -/
def StrandsNobody (b : Build) (policy : Policy) (c : Call) (s : Library) :
    Prop :=
  ∀ s', (system b policy).step c s = some s' → Freed s' ∧ StaysRunnable c s s'

/-- A `thread_join` made by a thread names no FINISHED thread. -/
def JoinsUnfinished (c : Call) (s : Library) : Prop :=
  ∀ tid o me, c = .join tid o → s.currentActive = some me → ¬Finished s tid

-- ============================================================= one call

theorem freed_iff (hwf : Wf policy s) :
    Freed s ↔ ∀ u, (view s).done u → (view s).waiters u = 0 := by
  constructor
  · rintro h u ⟨t, ht, hst⟩
    obtain ⟨hmem, rfl⟩ := findByTid_some ht
    refine (Multiset.coe_eq_zero _).mpr ?_
    rw [suspendedOf_of_mem hwf hmem]
    exact h t hmem hst
  · intro h t ht hst
    rw [← suspendedOf_of_mem hwf ht]
    exact (Multiset.coe_eq_zero _).mp
      (h t.tid ((finished_iff hwf ht).mpr hst))

theorem Treats.wait {me tid : Int} (h : Treats s c (.wait me tid)) :
    ∃ o, c = .join tid o ∧ s.currentActive = some me := by
  cases c with
  | join u o =>
      cases hcur : s.currentActive with
      | none => simp [Treats, hcur] at h
      | some x =>
          simp only [Treats, hcur, Way.wait.injEq, reduceCtorEq, false_and,
            or_false] at h
          obtain ⟨-, rfl, rfl⟩ := h
          exact ⟨o, rfl, rfl⟩
  | _ => simp [Treats] at h

/-- A call whose join names an unfinished thread keeps the queues of the
FINISHED threads empty. -/
theorem Freed.step (hF : Freed s) (h : Placed policy s)
    (hok : JoinsUnfinished c s) (hst : (system b policy).step c s = some s') :
    Freed s' := by
  obtain ⟨⟨out, t⟩, hcall, rfl⟩ := Option.map_eq_some_iff.mp hst
  obtain ⟨_, _, hcall', hwf', -, hm⟩ :=
    call_refines h.wf h.inv b (enabled_of_call hcall)
  rw [hcall] at hcall'
  obtain ⟨-, rfl⟩ := Prod.mk.inj (Option.some.inj hcall')
  have hfreed := (freed_iff h.wf).mp hF
  rw [freed_iff hwf']
  rcases hm with ⟨hv, -, -⟩ | ⟨w, hm, ht⟩
  · rw [hv]
    exact hfreed
  · refine hm.freed hfreed fun me tid hw => ?_
    subst hw
    obtain ⟨o, rfl, hcur⟩ := ht.wait
    exact hok tid o me rfl hcur

/-- A thread that joins an existing thread is neither running nor ready
afterwards, FINISHED or not. -/
theorem not_runnable_of_join (h : Placed policy s) {tid me : Int}
    {o : Outside} (hcur : s.currentActive = some me) (htid : tid ∈ tids s)
    (hst : (system b policy).step (.join tid o) s = some s') :
    ¬Runnable s' me := by
  obtain ⟨⟨out, t⟩, hcall, rfl⟩ := Option.map_eq_some_iff.mp hst
  obtain ⟨_, _, hcall', -, -, hm⟩ :=
    call_refines h.wf h.inv b (c := .join tid o) trivial
  rw [hcall] at hcall'
  obtain ⟨-, rfl⟩ := Prod.mk.inj (Option.some.inj hcall')
  rcases hm with ⟨-, -, hno⟩ | ⟨w, hm, ht⟩
  · exact absurd htid (hno tid o rfl)
  · simp only [Treats, hcur] at ht
    obtain ⟨hrun, hready, -⟩ := Lib.not_able_of_gives_up (u := tid) h.inv
      hcur hm (ht.2.imp_right And.left)
    rintro (hme | hme)
    · exact hrun hme
    · exact hready (Multiset.mem_coe.mpr hme)

/-- A call strands nobody exactly if its join names an unfinished
thread. -/
theorem strandsNobody_iff (h : Placed policy s) (hF : Freed s) :
    StrandsNobody b policy c s ↔ JoinsUnfinished c s := by
  constructor
  · rintro hS tid o me rfl hcur hfin
    obtain ⟨t, ht, -⟩ := id hfin
    obtain ⟨out, s', hcall, -⟩ :=
      call_refines h.wf h.inv b (c := .join tid o) trivial
    have hst : (system b policy).step (.join tid o) s = some s' :=
      congrArg (Option.map Prod.snd) hcall
    exact not_runnable_of_join h hcur (mem_tids_of_findByTid ht) hst
      ((hS s' hst).2 tid o me rfl hcur hfin)
  · intro hok s' hst
    refine ⟨hF.step h hok hst, fun tid o me hc hcur hfin => ?_⟩
    exact absurd hfin (hok tid o me hc hcur)

theorem placed_freed_libinit (policy : Policy) :
    Placed policy (libinit policy) ∧ Freed (libinit policy) :=
  ⟨placed_libinit policy, fun _ ht => absurd ht List.not_mem_nil⟩

/-- What a run keeps as long as nobody joins a FINISHED thread. -/
theorem freed_of_reach (h : Reach (system b policy) JoinsUnfinished s) :
    Placed policy s ∧ Freed s := by
  refine h.invariant (I := fun t => Placed policy t ∧ Freed t) ?_ ?_
  · rintro t rfl
    exact placed_freed_libinit policy
  · rintro c t t' ⟨ht, hF⟩ hok hst
    exact ⟨(ht.step hst).1, hF.step ht hok hst⟩

-- ==================================================== the main theorem

/-- Under every policy: while joins name unfinished threads no reachable
state has anybody waiting on a FINISHED thread, and a run strands nobody
at any step exactly if each of its joins names an unfinished thread. -/
theorem nobody_stranded (b : Build) (policy : Policy) :
    (∀ s, Reach (system b policy) JoinsUnfinished s → Freed s)
      ∧ ∀ calls, Along (system b policy) (StrandsNobody b policy) calls
            (libinit policy)
          ↔ Along (system b policy) JoinsUnfinished calls (libinit policy) := by
  refine ⟨fun s h => (freed_of_reach h).2, fun calls => ?_⟩
  symm
  refine Lib.along_congr (I := fun s => Placed policy s ∧ Freed s) ?_ ?_ calls
    (libinit policy) (placed_freed_libinit policy)
  · rintro c t t' ⟨ht, hF⟩ hok hst
    exact ⟨(ht.step hst).1, hF.step ht hok hst⟩
  · rintro c t ⟨ht, hF⟩
    exact (strandsNobody_iff ht hF).symm

instance (s : Library) (u : Int) : Decidable (Finished s u) :=
  decidable_of_iff (∃ t ∈ findByTid s u, t.status = .finished) <| by
    simp [Finished]

instance (c : Call) (s : Library) : Decidable (JoinsUnfinished c s) :=
  match c with
  | .join tid _ => decidable_of_iff
      (∀ me ∈ s.currentActive, ¬Finished s tid) <| by
        constructor
        · rintro h _ _ me ⟨⟩ hcur
          exact h me hcur
        · exact fun h me hcur => h tid _ me rfl hcur
  | .create _ _ _ | .yield _ | .ret _ | .alarm _ => isTrue nofun

/-- The theorem where thread 1 joins thread 2, which then returns. -/
theorem nobody_stranded_return : ∃ s,
    Lib.run (system .plain .fifo)
        [.create true true 0, .create true true 0, .yield zero, .join 2 zero,
          .ret zero]
        (libinit .fifo) = some s
      ∧ s.currentActive = some 1 ∧ Finished s 2 ∧ Freed s := by
  let after := (Lib.run (system .plain .fifo)
    [.create true true 0, .create true true 0, .yield zero, .join 2 zero,
      .ret zero] (libinit .fifo)).get (by decide +kernel)
  refine ⟨after, by decide +kernel, by decide +kernel, by decide +kernel, ?_⟩
  exact (nobody_stranded .plain .fifo).1 after ⟨_, rfl,
    Lib.run_steps _ (by decide +kernel) (Option.some_get _).symm⟩

/-- Thread 2 joins thread 1 after thread 1 has returned, while thread 3 is
ready: it waits for a FINISHED thread and is not runnable. -/
theorem late_join_strands : ∃ s s', Reach (system .plain .fifo) Lib.Anything s
    ∧ (system .plain .fifo).step (.join 1 zero) s = some s'
    ∧ WaitsFor s' 2 1 ∧ ¬Freed s' ∧ ¬StaysRunnable (.join 1 zero) s s' := by
  let before := (Lib.run (system .plain .fifo)
    [.create true true 0, .create true true 0, .create true true 0,
      .yield zero, .ret zero] (libinit .fifo)).get (by decide +kernel)
  let after := ((system .plain .fifo).step (.join 1 zero) before).get
    (by decide +kernel)
  have hbefore : Reach (system .plain .fifo) Lib.Anything before :=
    Lib.reach_of_run _ rfl (Option.some_get _).symm
  have hqueue : ∃ t ∈ after.threadListHead,
      t.status = .finished ∧ t.suspendedQueue ≠ [] := by decide +kernel
  refine ⟨before, after, hbefore, (Option.some_get _).symm, ?_, fun hF => ?_,
    fun hR => ?_⟩
  · unfold WaitsFor
    decide +kernel
  · obtain ⟨t, ht, hst, hne⟩ := hqueue
    exact hne (hF t ht hst)
  · have hme : ¬(after.currentActive = some 2 ∨ 2 ∈ readyIds after) := by
      decide +kernel
    exact hme (hR 1 zero 2 rfl (by decide +kernel) (by decide +kernel))

end OperatingSystem.Thread
