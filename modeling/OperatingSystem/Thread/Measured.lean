/-
The bursts SJF measures, over whole runs and in both builds.

`Measured` adds to the library what no step reads: the bursts measured so
far, whose they are and how long. A burst is `end_time - start_time` of the
thread that yields or joins.

`Recorded` is what the records have of it: `yield_count` is the number of a
thread's bursts, and in the plain build the three slots are those of a cyclic
store (`Lib.Cyclic`) the bursts have been pushed into.
-/
import OperatingSystem.Thread.Shortest
import OperatingSystem.Lib.Cyclic
import Mathlib.Tactic.FinCases

namespace OperatingSystem.Thread

open Lib (Along Cyclic Reach)

variable {b : Build} {o : Outside} {s s' : Library} {c : Call}
  {t t' : MyThread} {id x : Int} {why : Reason}

-- ============================================================ the history

/-- The library and the bursts measured so far. -/
structure Measured where
  lib : Library
  bursts : List (Int × Int)
  deriving DecidableEq, Repr

/-- The burst of the running thread, if it ends now. -/
def burstOf (o : Outside) (s : Library) : Option (Int × Int) :=
  match s.currentActive with
  | none => none
  | some me => (findByTid s me).map fun t => (me, o.endTime - t.startTime)

/-- The burst a call measures. -/
def measuredBurst (s : Library) : Call → Option (Int × Int)
  | .yield o => burstOf o s
  | .join tid o => if tid ∈ tids s then burstOf o s else none
  | _ => none

/-- The library under SJF with its history. -/
def measured (b : Build) : Lib.System Measured Call where
  start := fun m => m = ⟨libinit .sjf, []⟩
  step := fun c m => (call b c m.lib).map fun r =>
    ⟨r.2, m.bursts ++ (measuredBurst m.lib c).toList⟩

/-- The bursts of thread `id`, the latest last. -/
def Measured.burstsOf (m : Measured) (id : Int) : List Int :=
  (m.bursts.filter fun p => p.1 = id).map Prod.snd

/-- The integer mean of the last three. -/
def meanOfThree (l : List Int) : Int := (l.drop (l.length - 3)).sum.tdiv 3

variable {m m' : Measured}

-- ============================================================= one step

/-- What a step makes of record `t` when it measures `burst`. -/
structure Measures (b : Build) (burst : Option (Int × Int))
    (t t' : MyThread) : Prop where
  tid : t'.tid = t.tid
  timing : (∃ x, burst = some (t.tid, x)
      ∧ timing t' = (timing t).measure b x)
    ∨ (∀ x, burst ≠ some (t.tid, x)) ∧ timing t' = timing t

/-- A step of the history, seen by the estimates. -/
inductive Progress (b : Build) (c : Call) (m m' : Measured) : Prop
  | idle (hrecords : m'.lib.threadListHead = m.lib.threadListHead)
      (hburst : measuredBurst m.lib c = none)
  | created (n : Int) (hn : ValidPriority n) (hc : c = .create true true n)
      (hlib : m'.lib = createdSjf n m.lib)
      (hburst : measuredBurst m.lib c = none)
  | chosen (g : MyThread → MyThread)
      (hrecords : m'.lib.threadListHead = m.lib.threadListHead.map g)
      (hg : ∀ t ∈ m.lib.threadListHead,
        Measures b (measuredBurst m.lib c) t (g t))

/-- A call that returns at once measures nothing. -/
theorem measuredBurst_of_returned (h : Placed .sjf s) {v : Int}
    (hcall : call b c s = some (.returned v, s')) :
    measuredBurst s c = none := by
  cases c with
  | yield o =>
      have hen : Enters s .yield := trivial
      obtain ⟨_, hs⟩ := call_of_enters h b o hen
      rw [show call b (.yield o) s = _ from hs] at hcall
      cases hcall
  | join tid o =>
      refine if_neg fun htid => ?_
      have hen : Enters s (.join tid) := htid
      obtain ⟨_, hs⟩ := call_of_enters h b o hen
      rw [show call b (.join tid o) s = _ from hs] at hcall
      cases hcall
  | create | ret | alarm => rfl

/-- A call that enters `my_scheduler` measures the burst of the thread that
yields or joins. -/
theorem measuredBurst_of_switched
    (hcall : call b (why.call o) s = some (.switched, s')) :
    measuredBurst s (why.call o)
      = if why.measured s = none then none else burstOf o s := by
  have hburst : burstOf o s
      = if s.currentActive = none then none else burstOf o s := by
    unfold burstOf
    cases s.currentActive <;> rfl
  cases why with
  | yield => exact hburst
  | ret => rfl
  | join tid =>
      have htid : tid ∈ tids s := by
        by_contra hno
        rw [Reason.call, call, threadJoin] at hcall
        split at hcall
        case isTrue => cases hcall
        case isFalse =>
          split at hcall
          next => cases hcall
          next t ht => exact hno (mem_tids_of_findByTid ht)
      exact (if_pos htid).trans hburst

theorem burstOf_eq_some (hwf : Wf .sjf s) (ht : t ∈ s.threadListHead)
    (h : s.currentActive = some t.tid) :
    burstOf o s = some (t.tid, o.endTime - t.startTime) := by
  unfold burstOf
  rw [h]
  dsimp only
  rw [findByTid_of_mem hwf.nodup ht]
  rfl

/-- The thread whose burst ends is the running one. -/
theorem current_of_burst {p : Int × Int} (h : measuredBurst s c = some p) :
    s.currentActive = some p.1 := by
  have hof {o : Outside} (h : burstOf o s = some p) :
      s.currentActive = some p.1 := by
    unfold burstOf at h
    split at h
    next => cases h
    next me hcur =>
      obtain ⟨t, -, rfl⟩ := Option.map_eq_some_iff.mp h
      exact hcur
  cases c with
  | yield o => exact hof h
  | join tid o =>
      by_cases htid : tid ∈ tids s
      · exact hof ((if_pos htid).symm.trans h)
      · exact absurd ((if_neg htid).symm.trans h) nofun
  | create | ret | alarm => cases h

theorem progress_of_step (h : Placed .sjf m.lib)
    (hst : (measured b).step c m = some m') :
    Progress b c m m'
      ∧ m'.bursts = m.bursts ++ (measuredBurst m.lib c).toList := by
  obtain ⟨⟨out, s'⟩, hcall, rfl⟩ := Option.map_eq_some_iff.mp hst
  refine ⟨?_, rfl⟩
  rcases call_sjf h.wf.policy_eq hcall with
    ⟨⟨v, rfl⟩, hs⟩ | ⟨o, why, rfl, rfl, hch⟩
  · have hnone := measuredBurst_of_returned h hcall
    rcases hs with rfl | rfl | ⟨n, hn, hc, rfl⟩
    · exact .idle rfl hnone
    · exact .idle rfl hnone
    · exact .created n hn hc rfl hnone
  · have hburst := measuredBurst_of_switched hcall
    obtain ⟨g, hg, hR⟩ := hch.records
    refine .chosen g hg fun t ht => ⟨(hR t).tid, ?_⟩
    rw [(hR t).timing]
    by_cases hme : why.measured m.lib = some t.tid
    · have hcur : m.lib.currentActive = some t.tid := by
        cases why with
        | ret => cases hme
        | yield | join => exact hme
      refine .inl ⟨o.endTime - t.startTime, ?_, if_pos hme⟩
      rw [hburst, hme, if_neg nofun, burstOf_eq_some h.wf ht hcur]
    · refine .inr ⟨fun x hx => hme ?_, if_neg hme⟩
      have hcur := current_of_burst hx
      cases why with
      | ret => cases hx
      | yield | join => exact hcur

-- ============================================================= the slots

/-- `time_first`, `time_second`, `time_third`. -/
def Timing.slots (d : Timing) : Fin 3 → Int :=
  ![d.timeFirst, d.timeSecond, d.timeThird]

/-- Burst number `n` goes into slot `n % 3`. -/
theorem Timing.store_slots {d : Timing} {n : Nat} (hn : d.yieldCount = n)
    (x : Int) :
    (d.store x).slots = Function.update d.slots (Fin.ofNat 3 n) x := by
  have hmod : d.yieldCount.tmod 3 = ((n % 3 : Nat) : Int) := by
    rw [hn]
    rfl
  unfold Timing.store
  rw [hmod]
  have hlt := Nat.mod_lt n (show 3 > 0 by decide)
  have hslot (j : Fin 3) (hj : n % 3 = j.val) : Fin.ofNat 3 n = j := Fin.ext hj
  rcases (by omega : n % 3 = 0 ∨ n % 3 = 1 ∨ n % 3 = 2) with h | h | h
  · rw [h, hslot 0 h, if_pos (by rfl)]
    funext j
    fin_cases j <;> rfl
  · rw [h, hslot 1 h, if_neg (by decide), if_pos (by rfl)]
    funext j
    fin_cases j <;> rfl
  · rw [h, hslot 2 h, if_neg (by decide), if_neg (by decide)]
    funext j
    fin_cases j <;> rfl

@[simp] theorem Timing.store_yieldCount (x : Int) (d : Timing) :
    (d.store x).yieldCount = d.yieldCount := by
  unfold Timing.store
  split
  case isTrue => rfl
  case isFalse => split <;> rfl

@[simp] theorem Timing.store_estimatedRuntime (x : Int) (d : Timing) :
    (d.store x).estimatedRuntime = d.estimatedRuntime := by
  unfold Timing.store
  split
  case isTrue => rfl
  case isFalse => split <;> rfl

theorem Timing.update_plain (x : Int) (d : Timing) :
    d.update x .plain = { d.store x with
      estimatedRuntime := if d.yieldCount > 2
        then (((∑ j, (d.store x).slots j).tdiv 3 : Int) : Rat)
        else d.estimatedRuntime } := by
  rw [Timing.update, Timing.store_yieldCount, Fin.sum_univ_three]
  split
  case isTrue => rfl
  case isFalse => rw [← Timing.store_estimatedRuntime x d]

@[simp] theorem Timing.measure_yieldCount (b : Build) (x : Int) (d : Timing) :
    (d.measure b x).yieldCount = d.yieldCount + 1 := by
  cases b with
  | plain =>
      rw [Timing.measure, Timing.update_plain]
      simp
  | aging => rfl

theorem Timing.measure_slots (x : Int) (d : Timing) :
    (d.measure .plain x).slots = (d.store x).slots := by
  rw [Timing.measure, Timing.update_plain]
  rfl

theorem Timing.measure_estimate (x : Int) (d : Timing) :
    (d.measure .plain x).estimatedRuntime = if d.yieldCount > 2
      then (((∑ j, (d.store x).slots j).tdiv 3 : Int) : Rat)
      else d.estimatedRuntime := by
  rw [Timing.measure, Timing.update_plain]

-- ============================================================ the invariant

theorem burstsOf_some (h : m'.bursts = m.bursts ++ [(id, x)]) :
    m'.burstsOf id = m.burstsOf id ++ [x] := by
  unfold Measured.burstsOf
  rw [h, List.filter_append, List.map_append]
  simp

theorem burstsOf_other {p : Option (Int × Int)}
    (h : m'.bursts = m.bursts ++ p.toList) (hp : ∀ x, p ≠ some (id, x)) :
    m'.burstsOf id = m.burstsOf id := by
  unfold Measured.burstsOf
  rw [h, List.filter_append, List.map_append]
  cases p with
  | none => simp
  | some q =>
      have hne : q.1 ≠ id := fun he => hp q.2 (by rw [← he])
      simp [hne]

/-- What the records say about the bursts of their threads. -/
structure Recorded (b : Build) (m : Measured) : Prop where
  placed : Placed .sjf m.lib
  known : ∀ p ∈ m.bursts, p.1 ∈ tids m.lib
  count : ∀ t ∈ m.lib.threadListHead,
    t.yieldCount = (m.burstsOf t.tid).length
  slots : b = .plain → ∀ t ∈ m.lib.threadListHead,
    Cyclic (timing t).slots (m.burstsOf t.tid)

/-- A thread nobody knows has no bursts. -/
theorem Recorded.burstsOf_new (h : Recorded b m) (hid : id ∉ tids m.lib) :
    m.burstsOf id = [] := by
  refine List.map_eq_nil_iff.mpr (List.filter_eq_nil_iff.mpr fun p hp => ?_)
  simp only [decide_eq_true_eq]
  rintro rfl
  exact hid (h.known p hp)

/-- A record and its thread's bursts go on together. -/
theorem recorded_of_measures {burst : Option (Int × Int)}
    (h : Measures b burst t t') (hb : m'.bursts = m.bursts ++ burst.toList)
    (hcount : t.yieldCount = (m.burstsOf t.tid).length)
    (hslots : b = .plain → Cyclic (timing t).slots (m.burstsOf t.tid)) :
    t'.yieldCount = (m'.burstsOf t'.tid).length
      ∧ (b = .plain → Cyclic (timing t').slots (m'.burstsOf t'.tid)) := by
  rw [h.tid]
  rcases h.timing with ⟨x, rfl, htiming⟩ | ⟨hother, htiming⟩
  · rw [burstsOf_some hb]
    constructor
    · have hyield := congrArg Timing.yieldCount htiming
      rw [Timing.measure_yieldCount] at hyield
      rw [show t'.yieldCount = t.yieldCount + 1 from hyield, hcount]
      simp
    · rintro rfl
      rw [htiming, Timing.measure_slots, Timing.store_slots hcount]
      exact (hslots rfl).push x
  · rw [burstsOf_other hb hother, htiming]
    refine ⟨?_, hslots⟩
    rw [← hcount]
    exact congrArg Timing.yieldCount htiming

theorem tids_map {g : MyThread → MyThread}
    (h : s'.threadListHead = s.threadListHead.map g)
    (hg : ∀ t ∈ s.threadListHead, (g t).tid = t.tid) : tids s' = tids s := by
  unfold tids
  rw [h, List.map_map]
  exact List.map_congr_left hg

theorem newThread_tid (n : Int) (q : Rat) (id : Int) :
    (newThread n q id).tid = id := rfl

theorem Recorded.step (h : Recorded b m)
    (hst : (measured b).step c m = some m') : Recorded b m' := by
  obtain ⟨hprog, hb⟩ := progress_of_step h.placed hst
  have hplaced : Placed .sjf m'.lib := by
    obtain ⟨r, hcall, rfl⟩ := Option.map_eq_some_iff.mp hst
    exact (h.placed.step (b := b) (c := c)
      (Option.map_eq_some_iff.mpr ⟨r, hcall, rfl⟩)).1
  have same (hnone : measuredBurst m.lib c = none) (id : Int) :
      m'.burstsOf id = m.burstsOf id :=
    burstsOf_other hb fun x hx => by rw [hnone] at hx; cases hx
  cases hprog with
  | idle hrecords hnone =>
      have htids : tids m'.lib = tids m.lib := by
        unfold tids
        rw [hrecords]
      rw [hnone] at hb
      refine ⟨hplaced, fun p hp => ?_, fun t ht => ?_, fun hplain t ht => ?_⟩
      · rw [htids]
        exact h.known p (by simpa [hb] using hp)
      · rw [same hnone]
        exact h.count t (hrecords ▸ ht)
      · rw [same hnone]
        exact h.slots hplain t (hrecords ▸ ht)
  | created n hn hc hlib hnone =>
      have hnew : m.lib.threadCount + 1 ∉ tids m.lib := fun hid => by
        have := (h.placed.wf.range _ hid).2
        omega
      have hempty := h.burstsOf_new hnew
      have hboth (t : MyThread) (ht : t ∈ m'.lib.threadListHead) :
          t.yieldCount = (m.burstsOf t.tid).length
            ∧ (b = .plain → Cyclic (timing t).slots (m.burstsOf t.tid)) := by
        rw [hlib] at ht
        rcases List.mem_append.mp ht with ht | ht
        · exact ⟨h.count t ht, fun hplain => h.slots hplain t ht⟩
        · rw [List.mem_singleton.mp ht, newThread_tid, hempty]
          exact ⟨rfl, fun _ => Lib.cyclic_nil _⟩
      rw [hnone] at hb
      refine ⟨hplaced, fun p hp => ?_, fun t ht => ?_, fun hplain t ht => ?_⟩
      · have hp' := h.known p (by simpa [hb] using hp)
        rw [hlib]
        unfold tids createdSjf
        rw [List.map_append]
        exact List.mem_append_left _ hp'
      · rw [same hnone]
        exact (hboth t ht).1
      · rw [same hnone]
        exact (hboth t ht).2 hplain
  | chosen g hrecords hg =>
      have htids := tids_map hrecords fun t ht => (hg t ht).tid
      have hboth (t' : MyThread) (ht' : t' ∈ m'.lib.threadListHead) :
          t'.yieldCount = (m'.burstsOf t'.tid).length
            ∧ (b = .plain →
              Cyclic (timing t').slots (m'.burstsOf t'.tid)) := by
        rw [hrecords] at ht'
        obtain ⟨t, ht, rfl⟩ := List.mem_map.mp ht'
        exact recorded_of_measures (hg t ht) hb (h.count t ht)
          fun hplain => h.slots hplain t ht
      refine ⟨hplaced, fun p hp => ?_, fun t ht => (hboth t ht).1,
        fun hplain t ht => (hboth t ht).2 hplain⟩
      rw [htids]
      rw [hb] at hp
      rcases List.mem_append.mp hp with hp | hp
      · exact h.known p hp
      · have hcur := current_of_burst (Option.mem_toList.mp hp)
        exact List.mem_toFinset.mp
          (h.placed.inv.known p.1 (Lib.Pool.places_of_running hcur))

theorem recorded_libinit (b : Build) : Recorded b ⟨libinit .sjf, []⟩ :=
  ⟨placed_libinit .sjf, fun _ hp => absurd hp List.not_mem_nil,
    fun _ ht => absurd ht List.not_mem_nil,
    fun _ _ ht => absurd ht List.not_mem_nil⟩

theorem recorded_of_reach {ok : Call → Measured → Prop}
    (h : Reach (measured b) ok m) : Recorded b m := by
  refine h.invariant ?_ fun c t t' ht _ hst => ht.step hst
  rintro t rfl
  exact recorded_libinit b

end OperatingSystem.Thread
