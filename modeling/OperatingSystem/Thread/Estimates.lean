/-
The estimates of SJF over whole runs: two slips.

- The plain build keeps the last three bursts in three slots, the one of
  burst `n` (counted from 0) being `n % 3`. The mean is taken when
  `yield_count > 2`, but `my_scheduler` counts a burst after it has been
  measured: the third burst leaves the estimate as it was
  (`mean_of_last_three_iff`).
- `average_time_so_far` divides by `thread_count`, which `thread_create` has
  already counted up: the average over `n` threads is taken over `n + 1`.
  It is the only step that can leave the range of what has been measured
  (`within_iff`).
-/
import OperatingSystem.Thread.Measured
import Mathlib.Algebra.Order.BigOperators.Group.List
import Mathlib.Algebra.Order.Ring.Cast
import Mathlib.Data.Int.Interval
import Mathlib.Tactic.Linarith

namespace OperatingSystem.Thread

open Lib (Along Cyclic Reach)

variable {b : Build} {o : Outside} {s s' : Library} {c : Call}
  {t t' : MyThread} {id x : Int} {m m' : Measured}

-- ============================================================ the third burst

theorem estimateOf_of_mem {policy : Policy} (hwf : Wf policy s)
    (ht : t ∈ s.threadListHead) : estimateOf s t.tid = t.estimatedRuntime := by
  rw [estimateOf, findByTid_of_mem hwf.nodup ht]

/-- In every run of the plain build: after a burst from its thread's third
on, the estimate is the integer mean of the thread's last three bursts
exactly if three were measured before, or the estimate was that mean
already. -/
theorem mean_of_last_three_iff (h : Reach (measured .plain) Lib.Anything m)
    (hst : (measured .plain).step c m = some m')
    (hburst : measuredBurst m.lib c = some (id, x))
    (hthird : 3 ≤ (m'.burstsOf id).length) :
    estimateOf m'.lib id = meanOfThree (m'.burstsOf id)
      ↔ 3 ≤ (m.burstsOf id).length
        ∨ estimateOf m.lib id = meanOfThree (m'.burstsOf id) := by
  have hrec := recorded_of_reach h
  have hrec' := hrec.step hst
  obtain ⟨hprog, hb⟩ := progress_of_step hrec.placed hst
  cases hprog with
  | idle _ hnone | created _ _ _ _ hnone =>
      rw [hburst] at hnone
      cases hnone
  | chosen g hrecords hg =>
      -- the record of the thread measured, before and after
      have hid : id ∈ tids m.lib := by
        have hcur := current_of_burst hburst
        exact List.mem_toFinset.mp
          (hrec.placed.inv.known id (Lib.Pool.places_of_running hcur))
      obtain ⟨t, ht, rfl⟩ := List.mem_map.mp hid
      have hgt := hg t ht
      have ht' : g t ∈ m'.lib.threadListHead := by
        rw [hrecords]
        exact List.mem_map_of_mem ht
      have hafter : estimateOf m'.lib t.tid = (g t).estimatedRuntime := by
        rw [← hgt.tid]
        exact estimateOf_of_mem hrec'.placed.wf ht'
      rw [hafter, estimateOf_of_mem hrec.placed.wf ht]
      rcases hgt.timing with ⟨y, hy, htiming⟩ | ⟨hno, -⟩
      · have hslots := hrec'.slots rfl (g t) ht'
        rw [hgt.tid, htiming, Timing.measure_slots] at hslots
        have hsum := hslots.sum_eq hthird
        have hcount := hrec.count t ht
        have hest := congrArg Timing.estimatedRuntime htiming
        rw [Timing.measure_estimate, hsum] at hest
        have hest : (g t).estimatedRuntime = if t.yieldCount > 2
            then ((meanOfThree (m'.burstsOf t.tid) : Int) : Rat)
            else t.estimatedRuntime := hest
        rw [hest]
        by_cases hmany : 3 ≤ (m.burstsOf t.tid).length
        · rw [if_pos (by omega)]
          exact iff_of_true rfl (.inl hmany)
        · rw [if_neg (by omega)]
          exact ⟨.inr, fun h => h.resolve_left hmany⟩
      · exact absurd hburst (hno x)

/-- Every burst takes 10. -/
def tick : Outside := ⟨10, 0, 0, 0⟩

/-- Two threads take turns, and thread 1 is about to yield for the third
time. -/
def beforeThird : List Call :=
  [.create true true 0, .create true true 0, .yield tick, .yield tick,
    .yield tick, .yield tick, .yield tick]

/-- The theorem at thread 1's fourth burst. -/
theorem mean_of_last_three_fourth : ∃ m m',
    Lib.run (measured .plain) (beforeThird ++ [.yield tick, .yield tick])
        ⟨libinit .sjf, []⟩ = some m
      ∧ (measured .plain).step (.yield tick) m = some m'
      ∧ (m'.burstsOf 1).length = 4
      ∧ estimateOf m'.lib 1 = meanOfThree (m'.burstsOf 1) := by
  let m := (Lib.run (measured .plain)
    (beforeThird ++ [.yield tick, .yield tick]) ⟨libinit .sjf, []⟩).get
    (by decide +kernel)
  let m' := ((measured .plain).step (.yield tick) m).get (by decide +kernel)
  have hm : Reach (measured .plain) Lib.Anything m :=
    Lib.reach_of_run _ rfl (Option.some_get _).symm
  refine ⟨m, m', (Option.some_get _).symm, (Option.some_get _).symm,
    by decide +kernel, ?_⟩
  refine (mean_of_last_three_iff (x := 10) hm (Option.some_get _).symm ?_
    ?_).mpr (.inl ?_)
  · decide +kernel
  · decide +kernel
  · decide +kernel

/-- After thread 1's third burst of 10 its estimate still is the 50 it was
created with. -/
theorem third_burst_not_counted : ∃ m m',
    Reach (measured .plain) Lib.Anything m
      ∧ (measured .plain).step (.yield tick) m = some m'
      ∧ m'.burstsOf 1 = [10, 10, 10] ∧ estimateOf m'.lib 1 = 50
      ∧ estimateOf m'.lib 1 ≠ meanOfThree (m'.burstsOf 1) := by
  let m := (Lib.run (measured .plain) beforeThird ⟨libinit .sjf, []⟩).get
    (by decide +kernel)
  let m' := ((measured .plain).step (.yield tick) m).get (by decide +kernel)
  exact ⟨m, m', Lib.reach_of_run _ rfl (Option.some_get _).symm,
    (Option.some_get _).symm, by decide +kernel, by decide +kernel,
    by decide +kernel⟩

-- ============================================================== the range

/-- `DEFAULT_RUNTIME` and all bursts measured so far. -/
def Measured.values (m : Measured) : List Int :=
  DEFAULT_RUNTIME :: m.bursts.map Prod.snd

def Measured.lowest (m : Measured) : Int :=
  m.values.min (List.cons_ne_nil _ _)

def Measured.highest (m : Measured) : Int :=
  m.values.max (List.cons_ne_nil _ _)

/-- Every estimate lies between the lowest and the highest value. -/
def Within (m : Measured) : Prop :=
  ∀ t ∈ m.lib.threadListHead,
    (m.lowest : Rat) ≤ t.estimatedRuntime ∧ t.estimatedRuntime ≤ m.highest

/-- Call `c` leaves every estimate in the range. -/
def StaysWithin (b : Build) (c : Call) (m : Measured) : Prop :=
  ∀ m', (measured b).step c m = some m' → Within m'

/-- A `thread_create` that appends a record to others finds their estimates
high enough on the sum: `thread_count + 1` times the lowest value. -/
def CreatesWithin (c : Call) (m : Measured) : Prop :=
  ∀ n, c = .create true true n → ValidPriority n →
    m.lib.threadListHead ≠ [] →
    (m.lowest : Rat) * (m.lib.threadCount + 1)
      ≤ (m.lib.threadListHead.map MyThread.estimatedRuntime).sum

theorem lowest_le (hx : x ∈ m.values) : m.lowest ≤ x :=
  List.min_le_of_mem hx

theorem le_highest (hx : x ∈ m.values) : x ≤ m.highest :=
  List.le_max_of_mem hx

/-- More bursts, a wider range. -/
theorem range_mono (h : ∀ x ∈ m.values, x ∈ m'.values) :
    m'.lowest ≤ m.lowest ∧ m.highest ≤ m'.highest :=
  ⟨lowest_le (h _ (List.min_mem _)), le_highest (h _ (List.max_mem _))⟩

theorem values_append {l : List (Int × Int)}
    (h : m'.bursts = m.bursts ++ l) : ∀ x ∈ m.values, x ∈ m'.values := by
  intro x hx
  unfold Measured.values at hx ⊢
  rw [h, List.map_append]
  rcases List.mem_cons.mp hx with rfl | hx
  · exact List.mem_cons_self
  · exact List.mem_cons_of_mem _ (List.mem_append_left _ hx)

theorem mem_values_of_burstsOf (hx : x ∈ m.burstsOf id) : x ∈ m.values := by
  obtain ⟨p, hp, rfl⟩ := List.mem_map.mp hx
  exact List.mem_cons_of_mem _ (List.mem_map_of_mem (List.mem_filter.mp hp).1)

/-- A truncated mean stays in the range. -/
theorem tdiv_three_within {a lo hi : Int} (hlo : 3 * lo ≤ a)
    (hhi : a ≤ 3 * hi) : lo ≤ a.tdiv 3 ∧ a.tdiv 3 ≤ hi := by
  rcases Int.le_total 0 a with ha | ha
  · rw [Int.tdiv_eq_ediv_of_nonneg ha]
    omega
  · have hneg : a.tdiv 3 = -((-a) / 3) := by
      rw [← Int.tdiv_eq_ediv_of_nonneg (Int.neg_nonneg.mpr ha), Int.neg_tdiv,
        Int.neg_neg]
    rw [hneg]
    omega

/-- A burst leaves its thread's estimate in the range: the plain build
takes the mean of three bursts, the aging build the middle between burst
and estimate. -/
theorem measure_within {d : Timing}
    (hslots : b = .plain → d.yieldCount > 2 → ∀ j,
      (d.store x).slots j ∈ m.values) (hx : x ∈ m.values)
    (hd : (m.lowest : Rat) ≤ d.estimatedRuntime
      ∧ d.estimatedRuntime ≤ m.highest) :
    (m.lowest : Rat) ≤ (d.measure b x).estimatedRuntime
      ∧ (d.measure b x).estimatedRuntime ≤ m.highest := by
  cases b with
  | plain =>
      rw [Timing.measure_estimate]
      split
      case isTrue hmany =>
        have hj := hslots rfl hmany
        rw [Fin.sum_univ_three]
        have hlo := fun j => lowest_le (hj j)
        have hhi := fun j => le_highest (hj j)
        have h₀ := hlo 0
        have h₁ := hlo 1
        have h₂ := hlo 2
        have h₀' := hhi 0
        have h₁' := hhi 1
        have h₂' := hhi 2
        have hmin : 3 * m.lowest ≤ (d.store x).slots 0
            + (d.store x).slots 1 + (d.store x).slots 2 := by omega
        have hmax : (d.store x).slots 0 + (d.store x).slots 1
            + (d.store x).slots 2 ≤ 3 * m.highest := by omega
        have hmean := tdiv_three_within hmin hmax
        exact ⟨Int.cast_le.mpr hmean.1, Int.cast_le.mpr hmean.2⟩
      case isFalse => exact hd
  | aging =>
      have hlo : (m.lowest : Rat) ≤ x := Int.cast_le.mpr (lowest_le hx)
      have hhi : (x : Rat) ≤ m.highest := Int.cast_le.mpr (le_highest hx)
      have hest : (d.measure .aging x).estimatedRuntime
          = x * (1 / 2) + d.estimatedRuntime * (1 / 2) := rfl
      rw [hest]
      constructor <;> linarith [hd.1, hd.2]

-- =========================================================== thread_create

/-- No more records than tids handed out. -/
theorem length_le_count {policy : Policy} (hwf : Wf policy s) :
    (s.threadListHead.length : Int) ≤ s.threadCount := by
  have hsub : (tids s).toFinset ⊆ Finset.Icc 1 s.threadCount := by
    intro id hid
    have := hwf.range id (List.mem_toFinset.mp hid)
    exact Finset.mem_Icc.mpr (by omega)
  have hcard := Finset.card_le_card hsub
  rw [List.toFinset_card_of_nodup hwf.nodup, Int.card_Icc] at hcard
  have hlen : (tids s).length = s.threadListHead.length :=
    List.length_map MyThread.tid
  have := hwf.count
  omega

/-- `thread_create` with a valid priority, a function and memory. -/
theorem threadCreate_succeeds (hwf : Wf .sjf s) {n : Int}
    (hn : ValidPriority n) :
    threadCreate true true n s
      = (.returned (s.threadCount + 1), createdSjf n s) := by
  unfold threadCreate
  rw [if_neg, if_neg nofun, if_neg (by rw [hwf.initialized]; decide)]
  · dsimp only
    rw [if_neg nofun]
    split
    next hp => rw [hwf.policy_eq] at hp; cases hp
    next => rfl
    next hp => rw [hwf.policy_eq] at hp; cases hp
  · unfold ValidPriority at hn
    push Not
    intro h₁ h₂
    exact (hn.resolve_left h₁).resolve_left h₂

theorem averageTimeSoFar_of_ne_nil (h : s.threadListHead ≠ []) :
    averageTimeSoFar s = (s.threadListHead.map MyThread.estimatedRuntime).sum
      / s.threadCount := by
  unfold averageTimeSoFar
  split
  next hnil => exact absurd hnil h
  next => rfl

/-- The sum of the estimates is at most one highest value for each record
and so for each tid handed out. -/
theorem sum_le_highest {policy : Policy} (hwf : Wf policy m.lib)
    (hW : Within m) :
    (m.lib.threadListHead.map MyThread.estimatedRuntime).sum
      ≤ (m.highest : Rat) * (m.lib.threadCount + 1 : Int) := by
  have hsum := List.sum_le_card_nsmul
    (m.lib.threadListHead.map MyThread.estimatedRuntime) (m.highest : Rat)
    (by
      intro q hq
      obtain ⟨t, ht, rfl⟩ := List.mem_map.mp hq
      exact (hW t ht).2)
  rw [List.length_map, nsmul_eq_mul, mul_comm] at hsum
  have hhigh : (0 : Rat) ≤ m.highest := by
    have := le_highest (m := m) (x := DEFAULT_RUNTIME) List.mem_cons_self
    unfold DEFAULT_RUNTIME at this
    exact Int.cast_nonneg (by omega)
  have hlen : (m.lib.threadListHead.length : Rat)
      ≤ (m.lib.threadCount + 1 : Int) := by
    have := length_le_count hwf
    exact_mod_cast (by omega :
      (m.lib.threadListHead.length : Int) ≤ m.lib.threadCount + 1)
  exact hsum.trans (mul_le_mul_of_nonneg_left hlen hhigh)

/-- The estimate of a new thread never exceeds the range, and stays above
its lower end exactly if the sum is high enough. -/
theorem average_within_iff {policy : Policy} (hwf : Wf policy m.lib)
    (hW : Within m) :
    ((m.lowest : Rat) ≤ averageTimeSoFar
          { m.lib with threadCount := m.lib.threadCount + 1 }
        ∧ averageTimeSoFar
          { m.lib with threadCount := m.lib.threadCount + 1 } ≤ m.highest)
      ↔ (m.lib.threadListHead ≠ [] →
        (m.lowest : Rat) * (m.lib.threadCount + 1)
          ≤ (m.lib.threadListHead.map MyThread.estimatedRuntime).sum) := by
  have hdefault : DEFAULT_RUNTIME ∈ m.values := List.mem_cons_self
  by_cases hnil : m.lib.threadListHead = []
  · have havg : averageTimeSoFar
        { m.lib with threadCount := m.lib.threadCount + 1 }
        = DEFAULT_RUNTIME := by
      unfold averageTimeSoFar
      rw [hnil]
    rw [havg]
    exact iff_of_true ⟨Int.cast_le.mpr (lowest_le hdefault),
      Int.cast_le.mpr (le_highest hdefault)⟩ fun h => absurd hnil h
  · have hcount : (0 : Rat) < (m.lib.threadCount + 1 : Int) := by
      have := hwf.count
      exact Int.cast_pos.mpr (by omega)
    have havg : averageTimeSoFar
        { m.lib with threadCount := m.lib.threadCount + 1 }
        = (m.lib.threadListHead.map MyThread.estimatedRuntime).sum
          / (m.lib.threadCount + 1 : Int) := averageTimeSoFar_of_ne_nil hnil
    rw [havg, le_div_iff₀ hcount, div_le_iff₀ hcount]
    have hcast : ((m.lib.threadCount + 1 : Int) : Rat)
        = m.lib.threadCount + 1 := by push_cast; rfl
    constructor
    · rintro ⟨hlow, -⟩ -
      rwa [hcast] at hlow
    · intro hlow
      refine ⟨?_, sum_le_highest hwf hW⟩
      rw [hcast]
      exact hlow hnil

-- ============================================================= one step

theorem within_of_unchanged (hW : Within m)
    (hrecords : m'.lib.threadListHead = m.lib.threadListHead)
    (hvalues : ∀ x ∈ m.values, x ∈ m'.values) : Within m' := by
  obtain ⟨hlow, hhigh⟩ := range_mono hvalues
  intro t ht
  obtain ⟨hlo, hhi⟩ := hW t (hrecords ▸ ht)
  exact ⟨(Int.cast_le.mpr hlow).trans hlo, hhi.trans (Int.cast_le.mpr hhigh)⟩

/-- A record whose burst is measured stays in the range. -/
theorem within_of_measures {burst : Option (Int × Int)}
    (h : Measures b burst t t') (hb : m'.bursts = m.bursts ++ burst.toList)
    (ht : (m.lowest : Rat) ≤ t.estimatedRuntime
      ∧ t.estimatedRuntime ≤ m.highest)
    (hcount : t.yieldCount = (m.burstsOf t.tid).length)
    (hslots : b = .plain → Cyclic (timing t').slots (m'.burstsOf t'.tid)) :
    (m'.lowest : Rat) ≤ t'.estimatedRuntime
      ∧ t'.estimatedRuntime ≤ m'.highest := by
  obtain ⟨hlow, hhigh⟩ := range_mono (values_append hb)
  have ht' : (m'.lowest : Rat) ≤ t.estimatedRuntime
      ∧ t.estimatedRuntime ≤ m'.highest :=
    ⟨(Int.cast_le.mpr hlow).trans ht.1, ht.2.trans (Int.cast_le.mpr hhigh)⟩
  rcases h.timing with ⟨x, rfl, htiming⟩ | ⟨-, htiming⟩
  · have hest := congrArg Timing.estimatedRuntime htiming
    rw [show t'.estimatedRuntime = _ from hest]
    have hbursts := burstsOf_some hb
    refine measure_within (fun hplain hmany j => ?_) ?_ ht'
    · -- the fourth burst or a later one: every slot holds a burst
      subst hplain
      have hcyc := hslots rfl
      rw [h.tid, htiming, Timing.measure_slots] at hcyc
      refine mem_values_of_burstsOf (hcyc.mem ?_ j)
      have hmany : t.yieldCount > 2 := hmany
      rw [hbursts, List.length_append]
      omega
    · have hlast : x ∈ m'.burstsOf t.tid := by
        rw [hbursts]
        exact List.mem_append_right _ List.mem_cons_self
      exact mem_values_of_burstsOf hlast
  · have hest := congrArg Timing.estimatedRuntime htiming
    rw [show t'.estimatedRuntime = t.estimatedRuntime from hest]
    exact ht'

/-- What a run keeps as long as new threads start in the range. -/
structure InRange (b : Build) (m : Measured) : Prop where
  recorded : Recorded b m
  within : Within m

theorem within_createdSjf (hW : Within m) {n : Int}
    (hlib : m'.lib = createdSjf n m.lib) (hb : m'.bursts = m.bursts) :
    Within m' ↔ ((m.lowest : Rat) ≤ averageTimeSoFar
          { m.lib with threadCount := m.lib.threadCount + 1 }
        ∧ averageTimeSoFar
          { m.lib with threadCount := m.lib.threadCount + 1 }
          ≤ m.highest) := by
  have hlow : m'.lowest = m.lowest := by
    unfold Measured.lowest Measured.values
    simp only [hb]
  have hhigh : m'.highest = m.highest := by
    unfold Measured.highest Measured.values
    simp only [hb]
  unfold Within
  rw [hlow, hhigh, hlib]
  constructor
  · intro h
    exact h _ (List.mem_append_right _ List.mem_cons_self)
  · intro h t ht
    rcases List.mem_append.mp ht with ht | ht
    · exact hW t ht
    · rw [List.mem_singleton.mp ht]
      exact h

theorem InRange.step (h : InRange b m) (hok : CreatesWithin c m)
    (hst : (measured b).step c m = some m') : InRange b m' := by
  have hrec' := h.recorded.step hst
  obtain ⟨hprog, hb⟩ := progress_of_step h.recorded.placed hst
  refine ⟨hrec', ?_⟩
  cases hprog with
  | idle hrecords _ =>
      exact within_of_unchanged h.within hrecords (values_append hb)
  | created n hn hc hlib hnone =>
      rw [hnone] at hb
      rw [within_createdSjf h.within hlib (by simpa using hb),
        average_within_iff h.recorded.placed.wf h.within]
      exact hok n hc hn
  | chosen g hrecords hg =>
      intro t' ht'
      have hmem := ht'
      rw [hrecords] at ht'
      obtain ⟨t, ht, rfl⟩ := List.mem_map.mp ht'
      exact within_of_measures (hg t ht) hb (h.within t ht)
        (h.recorded.count t ht) fun hplain => hrec'.slots hplain _ hmem

/-- A step leaves every estimate in the range exactly if its
`thread_create`, if it is one, finds a sum high enough. -/
theorem InRange.staysWithin_iff (h : InRange b m) :
    StaysWithin b c m ↔ CreatesWithin c m := by
  constructor
  · rintro hS n rfl hn
    have hcreate := threadCreate_succeeds h.recorded.placed.wf hn
    have hst : (measured b).step (.create true true n) m
        = some ⟨createdSjf n m.lib, m.bursts ++ []⟩ := by
      simp only [measured, call, hcreate, Option.map_some]
      rfl
    have hW := hS _ hst
    rw [within_createdSjf h.within rfl (List.append_nil _),
      average_within_iff h.recorded.placed.wf h.within] at hW
    exact hW
  · exact fun hok m' hst => (h.step hok hst).within

theorem inRange_libinit (b : Build) : InRange b ⟨libinit .sjf, []⟩ :=
  ⟨recorded_libinit b, fun _ ht => absurd ht List.not_mem_nil⟩

-- ==================================================== the main theorem

/-- In both builds: while every `thread_create` finds a sum of estimates
that is high enough, each estimate lies between the lowest and the highest
of `DEFAULT_RUNTIME` and all bursts measured so far; and a run stays in the
range at every step exactly if each of its creations finds such a sum. -/
theorem within_iff (b : Build) :
    (∀ m, Reach (measured b) CreatesWithin m → Within m)
      ∧ ∀ calls, Along (measured b) (StaysWithin b) calls ⟨libinit .sjf, []⟩
        ↔ Along (measured b) CreatesWithin calls ⟨libinit .sjf, []⟩ := by
  refine ⟨fun m h => ?_, fun calls => ?_⟩
  · have hrange : InRange b m := by
      refine h.invariant ?_ fun c t t' ht hok hst => ht.step hok hst
      rintro t rfl
      exact inRange_libinit b
    exact hrange.within
  · symm
    refine Lib.along_congr (I := InRange b) ?_ ?_ calls _ (inRange_libinit b)
    · exact fun c t t' ht hok hst => ht.step hok hst
    · exact fun c t ht => ht.staysWithin_iff.symm

instance (c : Call) (m : Measured) : Decidable (CreatesWithin c m) :=
  match c with
  | .create true true n => decidable_of_iff
      (ValidPriority n → m.lib.threadListHead ≠ [] →
        (m.lowest : Rat) * (m.lib.threadCount + 1)
          ≤ (m.lib.threadListHead.map MyThread.estimatedRuntime).sum) <| by
        simp [CreatesWithin]
  | .create false _ _ => isTrue <| by simp [CreatesWithin]
  | .create true false _ => isTrue <| by simp [CreatesWithin]
  | .yield _ | .join _ _ | .ret _ | .alarm _ => isTrue <| by
      simp [CreatesWithin]

/-- The theorem in a run where the second thread is created after the first
has measured a burst of 0. -/
theorem within_after_zero : ∃ m,
    Lib.run (measured .aging)
        [.create true true 0, .yield zero, .yield zero, .create true true 0]
        ⟨libinit .sjf, []⟩ = some m
      ∧ m.lib.threadListHead.length = 2 ∧ Within m := by
  let m := (Lib.run (measured .aging)
    [.create true true 0, .yield zero, .yield zero, .create true true 0]
    ⟨libinit .sjf, []⟩).get (by decide +kernel)
  refine ⟨m, (Option.some_get _).symm, by decide +kernel, ?_⟩
  exact (within_iff .aging).1 m ⟨_, rfl,
    Lib.run_steps _ (by decide +kernel) (Option.some_get _).symm⟩

/-- The second thread is created with an estimate of 25 when nothing but
`DEFAULT_RUNTIME` = 50 has been seen, in either build. -/
theorem second_thread_below :
    (∃ m, Reach (measured .plain) Lib.Anything m ∧ m.bursts = []
        ∧ m.lowest = 50 ∧ estimateOf m.lib 2 = 25 ∧ ¬Within m)
      ∧ ∃ m, Reach (measured .aging) Lib.Anything m ∧ m.bursts = []
        ∧ m.lowest = 50 ∧ estimateOf m.lib 2 = 25 ∧ ¬Within m := by
  have hbelow (b : Build) : ∃ m, Reach (measured b) Lib.Anything m
      ∧ m.bursts = [] ∧ m.lowest = 50 ∧ estimateOf m.lib 2 = 25
      ∧ ¬Within m := by
    let m := (Lib.run (measured b) [.create true true 0, .create true true 0]
      ⟨libinit .sjf, []⟩).get (by cases b <;> decide +kernel)
    have hm : Reach (measured b) Lib.Anything m :=
      Lib.reach_of_run _ rfl (Option.some_get _).symm
    refine ⟨m, hm, ?_, ?_, ?_, fun hW => ?_⟩
    · cases b <;> decide +kernel
    · cases b <;> decide +kernel
    · cases b <;> decide +kernel
    · have hlow : ∃ t ∈ m.lib.threadListHead,
          ¬(m.lowest : Rat) ≤ t.estimatedRuntime := by
        cases b <;> decide +kernel
      obtain ⟨t, ht, hno⟩ := hlow
      exact hno (hW t ht).1
  exact ⟨hbelow .plain, hbelow .aging⟩

end OperatingSystem.Thread
