/-
The library refines the task pool: every call is either invisible in the
view or one move of the pool, and no call of a well-formed state follows a
NULL pointer or uses `nextID` unassigned.

# The shape of the argument

A branch of `my_scheduler` is a frame step (`SameTasks`), a choice and a
dispatch, which together are exactly one constructor of `Lib.Move`. The
branches that can leave for main although somebody is unfinished are the
two that choose before they put the running thread anywhere: SJF's YIELD
and everybody's STOPPED. `Treats` records that, call by call.
-/
import OperatingSystem.Thread.Ready

namespace OperatingSystem.Thread

open Lib (Takes Move Way)

variable {s s' s'' : Library} {policy : Policy} {id : Int} {t : MyThread}

-- =============================================== writes, seen by the view

/-- `suspended_queue`s after a write through a pointer. -/
theorem suspendedOf_onThread {f : MyThread → MyThread} {me u : Int}
    (hf : ∀ t, (f t).tid = t.tid) (ht : findByTid s me = some t) :
    suspendedOf (s.onThread me f) u
      = if u = me then (f t).suspendedQueue else suspendedOf s u := by
  unfold suspendedOf
  rw [findByTid_onThread hf]
  by_cases hu : u = me
  · subst hu
    simp [ht]
  · simp [hu]

/-- FINISHED threads after a write through a pointer. -/
theorem finished_onThread {f : MyThread → MyThread} {me u : Int}
    (hf : ∀ t, (f t).tid = t.tid) (ht : findByTid s me = some t) :
    Finished (s.onThread me f) u
      ↔ if u = me then (f t).status = .finished else Finished s u := by
  unfold Finished
  rw [findByTid_onThread hf]
  by_cases hu : u = me
  · subst hu
    simp [ht]
  · simp [hu]

/-- The estimate of the plain build writes only times. -/
theorem setEstimatedTimePlain_eq (t : MyThread) :
    ∃ first second third estimate, setEstimatedTimePlain t = { t with
      timeFirst := first, timeSecond := second, timeThird := third
      estimatedRuntime := estimate } := by
  have hslot : ∃ first second third,
      (if t.yieldCount.tmod 3 = FIRST then
          { t with timeFirst := t.endTime - t.startTime }
        else if t.yieldCount.tmod 3 = SECOND then
          { t with timeSecond := t.endTime - t.startTime }
        else { t with timeThird := t.endTime - t.startTime } : MyThread)
      = { t with
          timeFirst := first, timeSecond := second, timeThird := third } := by
    split
    · exact ⟨_, _, _, rfl⟩
    · split
      · exact ⟨_, _, _, rfl⟩
      · exact ⟨_, _, _, rfl⟩
  obtain ⟨first, second, third, hslot⟩ := hslot
  unfold setEstimatedTimePlain
  simp only [hslot]
  split
  · exact ⟨_, _, _, _, rfl⟩
  · exact ⟨_, _, _, _, rfl⟩

/-- Measuring a burst writes only times and the yield count. -/
theorem measureBurst_eq (b : Build) (now : Int) (t : MyThread) :
    ∃ first second third estimate, measureBurst b now t = { t with
      endTime := now, timeFirst := first, timeSecond := second
      timeThird := third, estimatedRuntime := estimate
      yieldCount := t.yieldCount + 1 } := by
  unfold measureBurst
  cases b with
  | plain =>
      obtain ⟨first, second, third, estimate, h⟩ :=
        setEstimatedTimePlain_eq (setEndTime now t)
      simp only [setEstimatedTime, h]
      exact ⟨_, _, _, _, rfl⟩
  | aging => exact ⟨_, _, _, _, rfl⟩

@[simp] theorem measureBurst_tid (b : Build) (now : Int) (t : MyThread) :
    (measureBurst b now t).tid = t.tid := by
  obtain ⟨_, _, _, _, h⟩ := measureBurst_eq b now t
  rw [h]

@[simp] theorem measureBurst_priority (b : Build) (now : Int) (t : MyThread) :
    (measureBurst b now t).priority = t.priority := by
  obtain ⟨_, _, _, _, h⟩ := measureBurst_eq b now t
  rw [h]

@[simp] theorem measureBurst_status (b : Build) (now : Int) (t : MyThread) :
    (measureBurst b now t).status = t.status := by
  obtain ⟨_, _, _, _, h⟩ := measureBurst_eq b now t
  rw [h]

@[simp] theorem measureBurst_suspendedQueue (b : Build) (now : Int)
    (t : MyThread) :
    (measureBurst b now t).suspendedQueue = t.suspendedQueue := by
  obtain ⟨_, _, _, _, h⟩ := measureBurst_eq b now t
  rw [h]

/-- Measuring a burst moves nobody. -/
theorem sameTasks_measureBurst (b : Build) (now me : Int) (s : Library) :
    SameTasks s (s.onThread me (measureBurst b now)) :=
  .onThread (fun t => measureBurst_tid b now t)
    (fun t => measureBurst_suspendedQueue b now t)
    fun t _ => by rw [measureBurst_status]

theorem Wf.measureBurst (h : Wf policy s) (b : Build) (now me : Int) :
    Wf policy (s.onThread me (measureBurst b now)) :=
  h.onThread (fun t => measureBurst_tid b now t)
    fun t => measureBurst_priority b now t

theorem SameBase.sameTasks (h : SameBase s s') : SameTasks s s' :=
  .of_records h.records

-- ========================================================== the branches

/-- FIFO and PRIORITY put the yielding thread back and choose. -/
theorem push_then_choose {s₁ : Library} (hpush : Pushed policy s id s₁)
    (hid : id ∈ tids s) (hids : ∀ x ∈ readyIds s, x ∈ tids s) (o : Outside) :
    ∃ r s', chooseNext o s₁ = (r, s')
      ∧ Takes (id ::ₘ (readyIds s : Multiset Int)) r
          (readyIds s' : Multiset Int)
      ∧ SameTasks s s' ∧ Wf policy s' := by
  have hids₁ : ∀ x ∈ readyIds s₁, x ∈ tids s₁ := by
    intro x hx
    rw [hpush.base.tids_eq]
    rcases List.mem_cons.mp (hpush.perm.mem_iff.mp hx) with rfl | hx
    · exact hid
    · exact hids x hx
  obtain ⟨r, s', hc, htake, hb, hwf⟩ := chooseNext_spec hpush.wf o hids₁
  refine ⟨r, s', hc, ?_, hpush.base.sameTasks.trans hb.sameTasks, hwf⟩
  rwa [Multiset.coe_eq_coe.mpr hpush.perm] at htake

/-- FIFO and PRIORITY put the yielding thread back before they choose. -/
theorem afterYield_push {cur : MyThread} (hwf : Wf policy s)
    (hpol : policy ≠ .sjf) (hn : ValidPriority cur.priority) (b : Build)
    (o : Outside) :
    afterYield b o cur s
      = some (chooseNext o
          ((queueFor policy cur.priority).push cur.tid s)) := by
  unfold afterYield
  split
  next hp =>
    obtain rfl : policy = .fifo := hwf.policy_eq.symm.trans hp
    rfl
  next hp => exact absurd (hwf.policy_eq.symm.trans hp) hpol
  next hp =>
    obtain rfl : policy = .priority := hwf.policy_eq.symm.trans hp
    rw [queueFor_push]
    split
    case isTrue => rfl
    case isFalse h₁ =>
      split
      case isTrue => rfl
      case isFalse h₂ =>
        rw [if_pos ((hn.resolve_left h₁).resolve_left h₂)]

/-- YIELD: the thread goes back to the ready structure and the next one is
taken, except that SJF forgets it when nothing else is ready. -/
theorem afterYield_spec (b : Build) (o : Outside) (cur : MyThread)
    (hwf : Wf policy s) (ht : findByTid s cur.tid = some t)
    (hpri : t.priority = cur.priority)
    (hids : ∀ x ∈ readyIds s, x ∈ tids s) :
    ∃ r s', afterYield b o cur s = some (r, s') ∧ SameTasks s s'
      ∧ Wf policy s'
      ∧ (Takes (cur.tid ::ₘ (readyIds s : Multiset Int)) r
            (readyIds s' : Multiset Int)
          ∧ (policy = .sjf → readyIds s ≠ [])
        ∨ policy = .sjf ∧ r = none ∧ readyIds s = [] ∧ readyIds s' = []) := by
  obtain ⟨hmem, htid⟩ := findByTid_some ht
  have hcur := mem_tids_of_findByTid ht
  by_cases hpol : policy = .sjf
  case neg =>
    have hpush := pushed_queueFor hwf hpol hmem
    rw [htid, hpri] at hpush
    obtain ⟨r, s', hc, htake, hsame, hwf'⟩ :=
      push_then_choose hpush hcur hids o
    refine ⟨r, s', ?_, hsame, hwf', .inl ⟨htake, fun h => absurd h hpol⟩⟩
    rw [afterYield_push hwf hpol (hpri ▸ hwf.priority t hmem), hc]
  case pos =>
    have hp : s.schedulePolicy = .sjf := hwf.policy_eq.trans hpol
    have hsame₁ := sameTasks_measureBurst b o.endTime cur.tid s
    have hwf₁ := hwf.measureBurst b o.endTime cur.tid
    obtain ⟨r, s₂, hc, htake, hb, hwf₂⟩ := chooseNext_spec hwf₁ o
      (fun x hx => hsame₁.tids_eq ▸ hids x hx)
    have hsame₂ := hsame₁.trans hb.sameTasks
    rw [readyIds_onThread] at htake
    unfold afterYield
    rw [hp]
    dsimp only
    rw [hc]
    cases r with
    | none =>
        obtain ⟨h₂, h₁⟩ := htake.ready_eq_zero
        exact ⟨none, s₂, rfl, hsame₂, hwf₂,
          .inr ⟨hpol, rfl, Multiset.coe_eq_zero _ |>.mp h₁,
            Multiset.coe_eq_zero _ |>.mp h₂⟩⟩
    | some n =>
        obtain ⟨t₂, ht₂⟩ := findByTid_of_mem_tids
          (show cur.tid ∈ tids s₂ from hsame₂.tids_eq ▸ hcur)
        obtain ⟨-, htid₂⟩ := findByTid_some ht₂
        have hpush := pushed_sjf hwf₂
          (by rw [hb.policy_eq]; exact hp) t₂.tid
          (truncate t₂.estimatedRuntime)
        simp only [ht₂]
        refine ⟨_, _, rfl, hsame₂.trans hpush.base.sameTasks, hpush.wf,
          .inl ⟨?_, fun _ hnil => ?_⟩⟩
        · cases htake with
          | next htake =>
              rw [htake, Multiset.coe_eq_coe.mpr hpush.perm, htid₂]
              exact .next (Multiset.cons_swap _ _ _)
        · rw [hnil] at htake
          cases htake with
          | next htake => exact absurd htake.symm (Multiset.cons_ne_zero)

/-- STOPPED: the thread joins the suspended queue of the one it waits for
and the next one is taken, except that it is forgotten when nothing is
ready. -/
theorem afterStopped_spec (b : Build) (o : Outside) (cur : MyThread)
    (hwf : Wf policy s) (hwait : cur.waitTid ∈ tids s)
    (hids : ∀ x ∈ readyIds s, x ∈ tids s) :
    ∃ r s', afterStopped b o cur s = some (r, s') ∧ Wf policy s'
      ∧ (r = none ∧ readyIds s = [] ∧ readyIds s' = [] ∧ SameTasks s s'
        ∨ ∃ n, r = some n
          ∧ (readyIds s : Multiset Int)
              = n ::ₘ (readyIds s' : Multiset Int)
          ∧ tids s' = tids s ∧ (∀ u, Finished s' u ↔ Finished s u)
          ∧ ∀ u, suspendedOf s' u = if u = cur.waitTid
              then suspendedOf s u ++ [cur.tid] else suspendedOf s u) := by
  -- SJF measures the burst first; the other policies change nothing yet
  obtain ⟨s₁, hs₁, hsame₁, hwf₁, hready₁⟩ : ∃ s₁,
      (if s.schedulePolicy = .sjf then
        s.onThread cur.tid (measureBurst b o.endTime) else s) = s₁
      ∧ SameTasks s s₁ ∧ Wf policy s₁ ∧ readyIds s₁ = readyIds s := by
    refine ⟨_, rfl, ?_⟩
    split
    case isTrue =>
      exact ⟨sameTasks_measureBurst b o.endTime cur.tid s,
        hwf.measureBurst b o.endTime cur.tid, rfl⟩
    case isFalse => exact ⟨.of_records rfl, hwf, rfl⟩
  obtain ⟨r, s₂, hc, htake, hb, hwf₂⟩ := chooseNext_spec hwf₁ o
    (fun x hx => hsame₁.tids_eq ▸ hids x (hready₁ ▸ hx))
  have hsame₂ := hsame₁.trans hb.sameTasks
  rw [hready₁] at htake
  unfold afterStopped
  rw [hs₁, hc]
  cases r with
  | none =>
      obtain ⟨h₂, h₁⟩ := htake.ready_eq_zero
      exact ⟨none, s₂, rfl, hwf₂,
        .inl ⟨rfl, Multiset.coe_eq_zero _ |>.mp h₁,
          Multiset.coe_eq_zero _ |>.mp h₂, hsame₂⟩⟩
  | some n =>
      obtain ⟨w, hw⟩ := findByTid_of_mem_tids
        (show cur.waitTid ∈ tids s₂ from hsame₂.tids_eq ▸ hwait)
      have hq : suspendedOf s cur.waitTid = w.suspendedQueue := by
        rw [← hsame₂.suspended]
        unfold suspendedOf
        rw [hw]
      simp only [hw]
      refine ⟨_, _, rfl, hwf₂.onThread (fun _ => rfl) fun _ => rfl,
        .inr ⟨n, rfl, ?_, ?_, fun u => ?_, fun u => ?_⟩⟩
      · cases htake with
        | next htake => exact htake
      · exact Eq.trans (tids_onThread fun _ => rfl) hsame₂.tids_eq
      · refine Iff.trans (finished_onThread (fun _ => rfl) hw) ?_
        rw [← hsame₂.finished u]
        split
        case isTrue h => rw [h]; unfold Finished; simp [hw]
        case isFalse => exact Iff.rfl
      · refine Eq.trans (suspendedOf_onThread (fun _ => rfl) hw) ?_
        rw [← hsame₂.suspended u]
        split
        case isTrue h => rw [h, hsame₂.suspended, hq]
        case isFalse => rfl

/-- FINISHED: everybody in the thread's suspended queue becomes ready and
the next one is taken. -/
theorem afterFinished_spec (o : Outside) (cur : MyThread)
    (hwf : Wf policy s) (ht : findByTid s cur.tid = some t)
    (hsus : ∀ x ∈ cur.suspendedQueue, x ∈ tids s)
    (hids : ∀ x ∈ readyIds s, x ∈ tids s) :
    ∃ r s', afterFinished o cur s = some (r, s') ∧ Wf policy s'
      ∧ Takes ((readyIds s : Multiset Int) + (cur.suspendedQueue : Multiset Int))
          r (readyIds s' : Multiset Int)
      ∧ tids s' = tids s ∧ (∀ u, Finished s' u ↔ Finished s u)
      ∧ ∀ u, suspendedOf s' u
          = if u = cur.tid then [] else suspendedOf s u := by
  obtain ⟨s₁, hw, hb₁, hwf₁, hperm⟩ := wakeAll_spec cur.suspendedQueue hwf hsus
  have ht₁ : findByTid s₁ cur.tid = some t := by
    unfold findByTid
    rw [hb₁.records]
    exact ht
  let clear : MyThread → MyThread := fun t => { t with suspendedQueue := [] }
  have hclear : ∀ t, (clear t).tid = t.tid := fun _ => rfl
  have hwf₂ : Wf policy (s₁.onThread cur.tid clear) :=
    hwf₁.onThread hclear fun _ => rfl
  obtain ⟨r, s', hc, htake, hb, hwf'⟩ := chooseNext_spec hwf₂ o (by
    intro x hx
    rw [tids_onThread hclear, hb₁.tids_eq]
    rcases List.mem_append.mp (hperm.mem_iff.mp hx) with hx | hx
    · exact hsus x hx
    · exact hids x hx)
  unfold afterFinished
  rw [hw]
  refine ⟨r, s', congrArg some hc, hwf', ?_, ?_, fun u => ?_, fun u => ?_⟩
  · rw [readyIds_onThread, Multiset.coe_eq_coe.mpr hperm] at htake
    rw [add_comm, Multiset.coe_add]
    exact htake
  · rw [hb.tids_eq, tids_onThread hclear, hb₁.tids_eq]
  · rw [hb.sameTasks.finished, finished_onThread hclear ht₁,
      ← hb₁.sameTasks.finished u]
    split
    case isTrue h => rw [h]; unfold Finished; simp [ht₁, clear]
    case isFalse => exact Iff.rfl
  · rw [hb.sameTasks.suspended, suspendedOf_onThread hclear ht₁,
      hb₁.sameTasks.suspended]

-- ============================================================ the switch

/-- `my_scheduler` after its choice: the thread chosen has a record and is
not FINISHED, so the switch goes through and moves nobody else. -/
theorem myScheduler_view {b : Build} {o : Outside} {r : Option Int}
    (hI' : ({ view s' with running := r } : Lib.Pool Int).Inv)
    (hnext : nextThread b o s = some (r, s')) (hwf : Wf policy s') :
    ∃ s'', myScheduler b o s = some s'' ∧ Wf policy s''
      ∧ tids s'' = tids s' ∧ view s'' = { view s' with running := r } := by
  have hview {s'' : Library} (hsame : SameTasks s' s'')
      (hready : readyIds s'' = readyIds s') (hcur : s''.currentActive = r) :
      view s'' = { view s' with running := r } := by
    rw [hsame.view_eq, hready, hcur]
    rfl
  unfold myScheduler
  rw [hnext]
  cases r with
  | none =>
      exact ⟨_, rfl, ⟨hwf.1, hwf.2, hwf.3, hwf.4, hwf.5, hwf.6, hwf.7⟩, rfl,
        rfl⟩
  | some id =>
      have hid : id ∈ tids s' :=
        List.mem_toFinset.mp (hI'.known id (Lib.Pool.places_of_running rfl))
      have hnf : ¬Finished s' id := fun h => hI'.not_running_of_done h rfl
      obtain ⟨t, ht⟩ := findByTid_of_mem_tids hid
      have hsame : SameTasks s' (s'.onThread id fun t =>
          setStartTime o.startTime
            { t with active := true, status := .scheduled }) := by
        refine .onThread (fun _ => rfl) (fun _ => rfl) fun t' ht' => ?_
        exact iff_of_false (by simp [setStartTime]) fun h => hnf ⟨t', ht', h⟩
      have hwf' : Wf policy (s'.onThread id fun t =>
          setStartTime o.startTime
            { t with active := true, status := .scheduled }) :=
        hwf.onThread (fun _ => rfl) fun _ => rfl
      unfold dispatch
      simp only [ht]
      rw [if_neg (by rintro ⟨-, h⟩; exact absurd h (by decide))]
      exact ⟨_, rfl,
        ⟨hwf'.1, hwf'.2, hwf'.3, hwf'.4, hwf'.5, hwf'.6, hwf'.7⟩,
        hsame.tids_eq, hview (hsame.trans (.of_records rfl)) rfl rfl⟩

/-- `my_scheduler` after a choice that is a move of the pool. -/
theorem myScheduler_move {b : Build} {o : Outside} {r : Option Int}
    {p : Lib.Pool Int} {w : Way Int} (hI : p.Inv)
    (hnext : nextThread b o s = some (r, s')) (hwf : Wf policy s')
    (hmove : Move p w { view s' with running := r }) :
    ∃ s'', myScheduler b o s = some s'' ∧ Wf policy s''
      ∧ tids s'' = tids s' ∧ Move p w (view s'') := by
  obtain ⟨s'', hs, hwf'', htids, hview⟩ :=
    myScheduler_view (hI.move hmove) hnext hwf
  exact ⟨s'', hs, hwf'', htids, hview ▸ hmove⟩

-- ==================================================== giving up the processor

/-- The library `my_scheduler` decides in once thread `me` has recorded
`f`: `active` is cleared. -/
def handOver (e : Event) (f : MyThread → MyThread) (me : Int)
    (cur : MyThread) (s : Library) : Library :=
  ((s.onThread me f).log e cur).onThread me fun t => { t with active := false }

variable {me tid : Int} {cur : MyThread} {f : MyThread → MyThread} {e : Event}
  {b : Build} {o : Outside}

/-- Everybody ready has a record. -/
theorem ready_known (hI : (view s).Inv) : ∀ x ∈ readyIds s, x ∈ tids s :=
  fun x hx => List.mem_toFinset.mp
    (hI.known x (Lib.Pool.places_of_ready (Multiset.mem_coe.mpr hx)))

/-- Everybody suspended has a record. -/
theorem suspended_known (hI : (view s).Inv) (u : Int) :
    ∀ x ∈ suspendedOf s u, x ∈ tids s := by
  intro x hx
  have hw : (view s).Waits x u := Multiset.mem_coe.mpr hx
  have hu : u ∈ (view s).all := hI.waiters_known u fun h => by
    rw [Lib.Pool.Waits, h] at hw
    exact absurd hw (Multiset.notMem_zero x)
  exact List.mem_toFinset.mp (hI.known x (Lib.Pool.places_of_waits hu hw))

/-- `current_active` points to the record of an unfinished thread. -/
theorem current_record (hI : (view s).Inv) (hcur : s.currentActive = some me) :
    ∃ cur, findByTid s me = some cur ∧ cur.status ≠ .finished := by
  obtain ⟨cur, hfind⟩ := findByTid_of_mem_tids (List.mem_toFinset.mp
    (hI.known me (Lib.Pool.places_of_running hcur)))
  exact ⟨cur, hfind,
    fun h => hI.not_running_of_done (x := me) ⟨cur, hfind, h⟩ hcur⟩

theorem Wf.handOver (hwf : Wf policy s) (hf : ∀ t, (f t).tid = t.tid)
    (hp : ∀ t, (f t).priority = t.priority) :
    Wf policy (handOver e f me cur s) :=
  ((hwf.onThread hf hp).log e).onThread (fun _ => rfl) fun _ => rfl

theorem findByTid_handOver (hf : ∀ t, (f t).tid = t.tid)
    (hfind : findByTid s me = some cur) :
    findByTid (handOver e f me cur s) me
      = some { f cur with active := false } := by
  refine Eq.trans (findByTid_onThread fun _ => rfl) ?_
  rw [if_pos rfl, findByTid_log, findByTid_onThread hf, if_pos rfl, hfind]
  rfl

/-- A thread that gives up the processor without finishing stays the same
task. -/
theorem SameTasks.handOver (hf : ∀ t, (f t).tid = t.tid)
    (hq : ∀ t, (f t).suspendedQueue = t.suspendedQueue)
    (hfind : findByTid s me = some cur) (hst : cur.status ≠ .finished)
    (hst' : (f cur).status ≠ .finished) :
    SameTasks s (handOver e f me cur s) := by
  have h₁ : SameTasks s (s.onThread me f) :=
    .onThread hf hq fun t ht => by
      obtain rfl : t = cur := Option.some.inj (ht.symm.trans hfind)
      exact iff_of_false hst' hst
  have h₂ : SameTasks s ((s.onThread me f).log e cur) :=
    h₁.trans (.of_records rfl)
  unfold Thread.handOver
  refine h₂.trans (.onThread ?_ ?_ ?_)
  · exact fun _ => rfl
  · exact fun _ => rfl
  · exact fun _ _ => Iff.rfl

/-- What `my_scheduler` does once the running thread has recorded why it
gives up the processor. -/
theorem nextThread_of_current (hf : ∀ t, (f t).tid = t.tid)
    (hcur : s.currentActive = some me) (hfind : findByTid s me = some cur) :
    nextThread b o ((s.onThread me f).log e cur)
      = match (f cur).status with
        | .finished => afterFinished o (f cur) (handOver e f me cur s)
        | .yield => afterYield b o (f cur) (handOver e f me cur s)
        | .stopped => afterStopped b o (f cur) (handOver e f me cur s)
        | _ => none := by
  unfold nextThread
  rw [log_currentActive, onThread_currentActive, hcur]
  dsimp only
  rw [findByTid_log, findByTid_onThread hf, if_pos rfl, hfind]
  rfl

theorem giveUp_eq (hfind : findByTid s me = some cur) :
    giveUp b o e f me s
      = (myScheduler b o ((s.onThread me f).log e cur)).map
          (Outcome.switched, ·) := by
  unfold giveUp
  rw [hfind]

-- ============================================================= the calls

/-- How each call may treat the thread that makes it. Only two kinds of
call can forget a thread: its own `thread_join` when nobody is ready, and
under SJF its own `thread_yield` when nobody is ready. -/
def Treats (s : Library) : Call → Way Int → Prop
  | .join tid _, w =>
      match s.currentActive with
      | none => w = .keep
      | some me => tid ∈ tids s
          ∧ (w = .wait me tid ∨ w = .drop me ∧ readyIds s = [])
  | .yield _, w =>
      w = .keep ∧ (s.schedulePolicy = .sjf → s.currentActive ≠ none →
          readyIds s ≠ [])
      ∨ ∃ me, s.currentActive = some me ∧ s.schedulePolicy = .sjf
          ∧ readyIds s = [] ∧ w = .drop me
  | _, w => w = .keep

/-- A call that gave up the processor, as a move of the pool. -/
def Switches (policy : Policy) (s : Library) (P : Way Int → Prop)
    (r : Option (Outcome × Library)) : Prop :=
  ∃ s' w, r = some (.switched, s') ∧ Wf policy s' ∧ tids s' = tids s
    ∧ Move (view s) w (view s') ∧ P w

theorem view_ready_eq_zero : (view s).ready = 0 ↔ readyIds s = [] :=
  Multiset.coe_eq_zero _

/-- Main's choice. -/
theorem main_choice (hwf : Wf policy s) (hI : (view s).Inv)
    (hcur : s.currentActive = none) (b : Build) (o : Outside) :
    ∃ r s', nextThread b o s = some (r, s')
      ∧ Takes (readyIds s : Multiset Int) r (readyIds s' : Multiset Int)
      ∧ SameBase s s' ∧ Wf policy s' := by
  obtain ⟨r, s', hc, htake, hb, hwf'⟩ := chooseNext_spec hwf o (ready_known hI)
  refine ⟨r, s', ?_, htake, hb, hwf'⟩
  unfold nextThread
  rw [hcur]
  exact congrArg some hc

/-- Main gives up the processor: the next ready thread runs. -/
theorem mainGivesUp_move (hwf : Wf policy s) (hI : (view s).Inv)
    (hcur : s.currentActive = none) :
    Switches policy s (· = .keep) (mainGivesUp b o s) := by
  obtain ⟨r, s', hnext, htake, hb, hwf'⟩ := main_choice hwf hI hcur b o
  have hmove : Move (view s) .keep { view s' with running := r } := by
    rw [hb.sameTasks.view_eq]
    exact .pick hcur htake
  obtain ⟨s'', hs, hwf'', ht, hm⟩ := myScheduler_move (o := o) hI hnext hwf' hmove
  exact ⟨s'', .keep, by rw [mainGivesUp, hs]; rfl, hwf'', ht.trans hb.tids_eq,
    hm, rfl⟩

/-- The choice made for a thread that yields. -/
theorem yield_choice (hwf : Wf policy s) (hI : (view s).Inv)
    (hcur : s.currentActive = some me) (b : Build) (o : Outside) :
    ∃ cur r s', findByTid s me = some cur
      ∧ nextThread b o ((s.onThread me fun t =>
          { t with status := .yield }).log .stopped cur) = some (r, s')
      ∧ SameTasks s s' ∧ Wf policy s'
      ∧ (Takes (me ::ₘ (readyIds s : Multiset Int)) r
            (readyIds s' : Multiset Int)
          ∧ (policy = .sjf → readyIds s ≠ [])
        ∨ policy = .sjf ∧ r = none ∧ readyIds s = [] ∧ readyIds s' = []) := by
  obtain ⟨cur, hfind, hst⟩ := current_record hI hcur
  obtain ⟨-, htid⟩ := findByTid_some hfind
  let f : MyThread → MyThread := fun t => { t with status := .yield }
  have hf : ∀ t, (f t).tid = t.tid := fun _ => rfl
  have hsame : SameTasks s (handOver .stopped f me cur s) :=
    .handOver hf (fun _ => rfl) hfind hst (by simp [f])
  have hwf₂ : Wf policy (handOver .stopped f me cur s) :=
    hwf.handOver hf fun _ => rfl
  have hfind₂ := findByTid_handOver (e := .stopped) hf hfind
  obtain ⟨r, s', hy, hsame', hwf', htake⟩ := afterYield_spec b o (f cur) hwf₂
    (t := { f cur with active := false }) (by rw [hf, htid]; exact hfind₂) rfl
    (fun x hx => hsame.tids_eq ▸ ready_known hI x hx)
  have hnext := nextThread_of_current (b := b) (o := o) (e := .stopped) hf
    hcur hfind
  rw [show (f cur).status = .yield from rfl] at hnext
  rw [hf, htid] at htake
  exact ⟨cur, r, s', hfind, hnext.trans hy, hsame.trans hsame', hwf', htake⟩

/-- The running thread yields, or `SIGALRM` interrupts it. -/
theorem giveUp_yield (hwf : Wf policy s) (hI : (view s).Inv)
    (hcur : s.currentActive = some me) :
    Switches policy s
      (fun w => w = .keep ∧ (policy = .sjf → readyIds s ≠ [])
        ∨ policy = .sjf ∧ readyIds s = [] ∧ w = .drop me)
      (giveUp b o .stopped (fun t => { t with status := .yield }) me s) := by
  obtain ⟨cur, r, s', hfind, hnext, hsame, hwf', htake⟩ :=
    yield_choice hwf hI hcur b o
  rw [giveUp_eq hfind]
  rcases htake with ⟨htake, hne⟩ | ⟨hpol, rfl, hready, hr'⟩
  · have hmove : Move (view s) .keep { view s' with running := r } := by
      rw [hsame.view_eq]
      exact .rotate hcur htake
    obtain ⟨s'', hs, hwf'', ht, hm⟩ :=
      myScheduler_move (o := o) hI hnext hwf' hmove
    exact ⟨s'', .keep, by rw [hs]; rfl, hwf'', ht.trans hsame.tids_eq, hm,
      .inl ⟨rfl, hne⟩⟩
  · have hmove : Move (view s) (.drop me) { view s' with running := none } := by
      rw [hsame.view_eq, hr', ← hready]
      exact .drop hcur (view_ready_eq_zero.mpr hready)
    obtain ⟨s'', hs, hwf'', ht, hm⟩ :=
      myScheduler_move (o := o) hI hnext hwf' hmove
    exact ⟨s'', .drop me, by rw [hs]; rfl, hwf'', ht.trans hsame.tids_eq, hm,
      .inr ⟨hpol, hready, rfl⟩⟩

/-- The choice made for a thread that joins an existing one. -/
theorem join_choice (hwf : Wf policy s) (hI : (view s).Inv)
    (hcur : s.currentActive = some me) (htid : tid ∈ tids s) (b : Build)
    (o : Outside) :
    ∃ cur r s', findByTid s me = some cur
      ∧ nextThread b o ((s.onThread me fun t =>
          { t with status := .stopped, waitTid := tid }).log .stopped cur)
        = some (r, s') ∧ Wf policy s'
      ∧ (r = none ∧ readyIds s = [] ∧ readyIds s' = [] ∧ SameTasks s s'
        ∨ ∃ n, r = some n
          ∧ (readyIds s : Multiset Int) = n ::ₘ (readyIds s' : Multiset Int)
          ∧ tids s' = tids s ∧ (∀ u, Finished s' u ↔ Finished s u)
          ∧ ∀ u, suspendedOf s' u = if u = tid
              then suspendedOf s u ++ [me] else suspendedOf s u) := by
  obtain ⟨cur, hfind, hst⟩ := current_record hI hcur
  obtain ⟨-, hme⟩ := findByTid_some hfind
  let f : MyThread → MyThread :=
    fun t => { t with status := .stopped, waitTid := tid }
  have hf : ∀ t, (f t).tid = t.tid := fun _ => rfl
  have hsame : SameTasks s (handOver .stopped f me cur s) :=
    .handOver hf (fun _ => rfl) hfind hst (by simp [f])
  have hwf₂ : Wf policy (handOver .stopped f me cur s) :=
    hwf.handOver hf fun _ => rfl
  obtain ⟨r, s', hy, hwf', hcase⟩ := afterStopped_spec b o (f cur) hwf₂
    (show tid ∈ _ from hsame.tids_eq ▸ htid)
    (fun x hx => hsame.tids_eq ▸ ready_known hI x hx)
  have hnext := nextThread_of_current (b := b) (o := o) (e := .stopped) hf
    hcur hfind
  rw [show (f cur).status = .stopped from rfl] at hnext
  refine ⟨cur, r, s', hfind, hnext.trans hy, hwf', ?_⟩
  rcases hcase with ⟨rfl, hr, hr', hsame'⟩ | ⟨n, rfl, hr, htids, hfin, hsus⟩
  · exact .inl ⟨rfl, hr, hr', hsame.trans hsame'⟩
  · refine .inr ⟨n, rfl, hr, htids.trans hsame.tids_eq,
      fun u => (hfin u).trans (hsame.finished u), fun u => ?_⟩
    rw [hsus, hsame.suspended, hf, hme]

/-- The running thread joins an existing thread. -/
theorem giveUp_join (hwf : Wf policy s) (hI : (view s).Inv)
    (hcur : s.currentActive = some me) (htid : tid ∈ tids s) :
    Switches policy s
      (fun w => w = .wait me tid ∨ w = .drop me ∧ readyIds s = [])
      (giveUp b o .stopped
        (fun t => { t with status := .stopped, waitTid := tid }) me s) := by
  obtain ⟨cur, r, s', hfind, hnext, hwf', hcase⟩ :=
    join_choice hwf hI hcur htid b o
  rw [giveUp_eq hfind]
  rcases hcase with ⟨rfl, hready, hr', hsame⟩ | ⟨n, rfl, hr, htids, hfin, hsus⟩
  · have hmove : Move (view s) (.drop me) { view s' with running := none } := by
      rw [hsame.view_eq, hr', ← hready]
      exact .drop hcur (view_ready_eq_zero.mpr hready)
    obtain ⟨s'', hs, hwf'', ht, hm⟩ :=
      myScheduler_move (o := o) hI hnext hwf' hmove
    exact ⟨s'', .drop me, by rw [hs]; rfl, hwf'', ht.trans hsame.tids_eq, hm,
      .inr ⟨rfl, hready⟩⟩
  · have hview : { view s' with running := some n } =
        ({ view s with
            running := some n, ready := (readyIds s' : Multiset Int)
            waiters := Function.update (view s).waiters tid
              (me ::ₘ (view s).waiters tid) } : Lib.Pool Int) := by
      apply Lib.Pool.ext
      case all => exact congrArg List.toFinset htids
      case done => exact funext fun u => propext (hfin u)
      case running => rfl
      case ready => rfl
      case waiters =>
        funext u
        simp only [view, hsus u]
        by_cases h : u = tid
        · subst h
          rw [if_pos rfl, Function.update_self]
          exact Multiset.coe_eq_coe.mpr (List.perm_append_singleton me _)
        · rw [if_neg h, Function.update_of_ne h]
    have hmove : Move (view s) (.wait me tid)
        { view s' with running := some n } := by
      rw [hview]
      exact .block hcur (List.mem_toFinset.mpr htid) hr
    obtain ⟨s'', hs, hwf'', ht, hm⟩ :=
      myScheduler_move (o := o) hI hnext hwf' hmove
    exact ⟨s'', .wait me tid, by rw [hs]; rfl, hwf'', ht.trans htids, hm,
      .inl rfl⟩

/-- The choice made when a thread's function has returned. -/
theorem finish_choice (hwf : Wf policy s) (hI : (view s).Inv)
    (hcur : s.currentActive = some me) (b : Build) (o : Outside) :
    ∃ cur r s', findByTid s me = some cur
      ∧ nextThread b o ((s.onThread me fun t =>
          { t with status := .finished }).log .finished cur) = some (r, s')
      ∧ Wf policy s'
      ∧ Takes ((view s).ready + (view s).waiters me) r
          (readyIds s' : Multiset Int)
      ∧ tids s' = tids s ∧ (∀ u, Finished s' u ↔ Finished s u ∨ u = me)
      ∧ ∀ u, suspendedOf s' u = if u = me then [] else suspendedOf s u := by
  obtain ⟨cur, hfind, hst⟩ := current_record hI hcur
  obtain ⟨-, hme⟩ := findByTid_some hfind
  let f : MyThread → MyThread := fun t => { t with status := .finished }
  have hf : ∀ t, (f t).tid = t.tid := fun _ => rfl
  let s₂ := handOver .finished f me cur s
  have hwf₂ : Wf policy s₂ := hwf.handOver hf fun _ => rfl
  have hfind₁ : findByTid ((s.onThread me f).log .finished cur) me
      = some (f cur) := by
    rw [findByTid_log, findByTid_onThread hf, if_pos rfl, hfind]
    rfl
  have hfind₂ : findByTid s₂ me = some { f cur with active := false } :=
    findByTid_handOver hf hfind
  have htids₂ : tids s₂ = tids s :=
    Eq.trans (tids_onThread fun _ => rfl) (tids_onThread hf)
  have hfin₂ : ∀ u, Finished s₂ u ↔ Finished s u ∨ u = me := by
    intro u
    refine Iff.trans (finished_onThread (fun _ => rfl) hfind₁) ?_
    by_cases h : u = me
    · simp [h, f]
    · rw [if_neg h]
      have := finished_onThread (u := u) hf hfind
      rw [if_neg h] at this
      exact this.trans (by simp [h])
  have hsus₂ : ∀ u, suspendedOf s₂ u = suspendedOf s u := by
    intro u
    refine Eq.trans (suspendedOf_onThread (fun _ => rfl) hfind₁) ?_
    by_cases h : u = me
    · simp [h, f, suspendedOf, hfind]
    · rw [if_neg h]
      have := suspendedOf_onThread (u := u) hf hfind
      rw [if_neg h] at this
      exact this
  have hqueue : (f cur).suspendedQueue = suspendedOf s me := by
    simp [f, suspendedOf, hfind]
  obtain ⟨r, s', hy, hwf', htake, htids, hfin, hsus⟩ :=
    afterFinished_spec o (f cur) hwf₂
      (by rw [hf, hme]; exact hfind₂)
      (fun x hx => htids₂ ▸ suspended_known hI me x (hqueue ▸ hx))
      (fun x hx => htids₂ ▸ ready_known hI x hx)
  have hnext := nextThread_of_current (b := b) (o := o) (e := .finished) hf
    hcur hfind
  rw [show (f cur).status = .finished from rfl] at hnext
  rw [hqueue] at htake
  refine ⟨cur, r, s', hfind, hnext.trans hy, hwf', htake, htids.trans htids₂,
    fun u => (hfin u).trans (hfin₂ u), fun u => ?_⟩
  rw [hsus, hsus₂, hf, hme]

/-- The running thread's function returns, and the thread is done. -/
theorem giveUp_finished_done (hwf : Wf policy s) (hI : (view s).Inv)
    (hcur : s.currentActive = some me) (b : Build) (o : Outside) :
    ∃ s', giveUp b o .finished (fun t => { t with status := .finished }) me s
        = some (.switched, s') ∧ Wf policy s' ∧ tids s' = tids s
      ∧ Move (view s) .keep (view s') ∧ Finished s' me := by
  obtain ⟨cur, r, s', hfind, hnext, hwf', htake, htids, hfin, hsus⟩ :=
    finish_choice hwf hI hcur b o
  rw [giveUp_eq hfind]
  have hview : { view s' with running := r } =
      ({ view s with
          done := fun x => (view s).done x ∨ x = me
          running := r, ready := (readyIds s' : Multiset Int)
          waiters := Function.update (view s).waiters me 0 }
        : Lib.Pool Int) := by
    apply Lib.Pool.ext
    case all => exact congrArg List.toFinset htids
    case done => exact funext fun u => propext (hfin u)
    case running => rfl
    case ready => rfl
    case waiters =>
      funext u
      simp only [view, hsus u]
      by_cases h : u = me
      · rw [if_pos h, h, Function.update_self]
        rfl
      · rw [if_neg h, Function.update_of_ne h]
  have hmove : Move (view s) .keep { view s' with running := r } := by
    rw [hview]
    exact .finish hcur htake
  obtain ⟨s'', hs, hwf'', ht, hv⟩ :=
    myScheduler_view (o := o) (hI.move hmove) hnext hwf'
  refine ⟨s'', by rw [hs]; rfl, hwf'', ht.trans htids, hv ▸ hmove, ?_⟩
  show (view s'').done me
  rw [hv]
  exact (hfin me).mpr (.inr rfl)

/-- The running thread's function returns. -/
theorem giveUp_finished (hwf : Wf policy s) (hI : (view s).Inv)
    (hcur : s.currentActive = some me) :
    Switches policy s (· = .keep)
      (giveUp b o .finished (fun t => { t with status := .finished }) me
        s) := by
  obtain ⟨s', hs, hwf', htids, hmove, -⟩ :=
    giveUp_finished_done hwf hI hcur b o
  exact ⟨s', .keep, hs, hwf', htids, hmove, rfl⟩

-- ============================================================ thread_create

/-- The record `thread_create` appends. -/
def newThread (priority : Int) (estimate : Rat) (tid : Int) : MyThread where
  tid := tid
  status := .created
  active := false
  priority := priority
  yieldCount := 0
  waitTid := NOT_FOUND
  timeFirst := 0
  timeSecond := 0
  timeThird := 0
  estimatedRuntime := estimate
  startTime := 0
  endTime := 0
  suspendedQueue := []

/-- A counter step that ends without a record leaves the pool alone. -/
theorem Wf.count_succ (hwf : Wf policy s) :
    Wf policy { s with threadCount := s.threadCount + 1 } := by
  refine ⟨hwf.initialized, hwf.policy_eq, hwf.nodup, fun u hu => ?_,
    by have := hwf.count; dsimp only; omega, hwf.priority, hwf.own⟩
  have := hwf.range u hu
  dsimp only
  omega

/-- A fresh record leaves the library well formed. -/
theorem Wf.append (hwf : Wf policy s) (hI : (view s).Inv) {n m : Int}
    (hn : ValidPriority n) (q : Rat) (hpos : 0 < m) (hle : m ≤ s.threadCount)
    (hfresh : m ∉ tids s) :
    Wf policy { s with
      threadListHead := s.threadListHead ++ [newThread n q m] } := by
  refine ⟨hwf.initialized, hwf.policy_eq, ?_, ?_, hwf.count, ?_, ?_⟩
  · unfold tids
    rw [List.map_append]
    refine List.Nodup.append hwf.nodup (List.nodup_singleton _) ?_
    exact List.disjoint_singleton.mpr hfresh
  · intro u hu
    unfold tids at hu
    rw [List.map_append] at hu
    dsimp only
    rcases List.mem_append.mp hu with hu | hu
    · exact hwf.range u hu
    · rw [List.mem_singleton.mp hu]
      exact ⟨hpos, hle⟩
  · intro t ht
    rcases List.mem_append.mp ht with ht | ht
    · exact hwf.priority t ht
    · rw [List.mem_singleton.mp ht]
      exact hn
  · intro hpol t ht
    rcases List.mem_append.mp ht with ht | ht
    · exact hwf.own hpol t ht
    · -- a tid not handed out yet is in no queue
      have hno : m ∉ readyIds s := fun h => hfresh (ready_known hI _ h)
      simp only [readyIds, hwf.policy_eq, hpol, List.mem_append] at hno
      push Not at hno
      rw [List.mem_singleton.mp ht]
      exact ⟨fun h => absurd h hno.1, fun h => absurd h hno.2.1,
        fun h => absurd h hno.2.2⟩

/-- A fresh record adds a task that is nowhere yet. -/
theorem view_append {n : Int} {q : Rat} {m : Int} (hfresh : m ∉ tids s) :
    view { s with
        threadCount := m, threadListHead := s.threadListHead ++ [newThread n q m] }
      = { view s with all := insert m (view s).all } := by
  have hfind : ∀ u, findByTid { s with
        threadCount := m
        threadListHead := s.threadListHead ++ [newThread n q m] } u
      = (findByTid s u).or (if m = u then some (newThread n q m) else none) := by
    intro u
    unfold findByTid
    rw [List.find?_append]
    congr 1
    by_cases h : m = u
    · simp [newThread, h]
    · simp [newThread, h]
  have hnone : findByTid s m = none := by
    cases h : findByTid s m with
    | none => rfl
    | some t => exact absurd (mem_tids_of_findByTid h) hfresh
  apply Lib.Pool.ext
  case all =>
    ext x
    simp [view, tids, newThread]
  case done =>
    funext u
    simp only [view, Finished, hfind]
    by_cases h : m = u
    · subst h
      simp [hnone, newThread]
    · simp [h]
  case running => rfl
  case ready => rfl
  case waiters =>
    funext u
    simp only [view, suspendedOf, hfind]
    by_cases h : m = u
    · subst h
      simp [hnone, newThread]
    · simp [h]

/-- `thread_create` fails without touching the pool, or spawns a ready
thread. -/
theorem threadCreate_move (hwf : Wf policy s) (hI : (view s).Inv)
    (func malloc : Bool) (n : Int) :
    ∃ v s', threadCreate func malloc n s = (.returned v, s') ∧ Wf policy s'
      ∧ (view s' = view s ∨ Move (view s) .keep (view s')) := by
  unfold threadCreate
  split
  case isTrue => exact ⟨_, _, rfl, hwf, .inl rfl⟩
  case isFalse hvalid =>
  split
  case isTrue => exact ⟨_, _, rfl, hwf, .inl rfl⟩
  case isFalse =>
  rw [if_neg (by rw [hwf.initialized]; decide)]
  split
  case isTrue => exact ⟨_, _, rfl, hwf.count_succ, .inl rfl⟩
  case isFalse =>
  have hn : ValidPriority n := by
    unfold ValidPriority
    by_contra h
    push Not at h
    exact hvalid h
  have hfresh : s.threadCount + 1 ∉ tids s := fun h => by
    have := hwf.range _ h
    omega
  let q := averageTimeSoFar { s with threadCount := s.threadCount + 1 }
  let t := newThread n q (s.threadCount + 1)
  let s₁ : Library := { s with
    threadCount := s.threadCount + 1
    threadListHead := s.threadListHead ++ [t] }
  have hwf₁ : Wf policy s₁ := by
    have hcount := hwf.count
    refine hwf.count_succ.append hI hn q ?_ (Int.le_refl _) hfresh
    omega
  have hview₁ : view s₁
      = { view s with all := insert (s.threadCount + 1) (view s).all } :=
    view_append hfresh
  have hmem : t ∈ s₁.threadListHead :=
    List.mem_append_right _ List.mem_cons_self
  -- whichever queue it goes into, the new thread is pushed
  have spawn {s' : Library} (hpush : Pushed policy s₁ t.tid s') :
      Wf policy (s'.log .created t)
        ∧ Move (view s) .keep (view (s'.log .created t)) := by
    have hwf' := hpush.wf
    refine ⟨hwf'.log _, ?_⟩
    have hv : view (s'.log .created t) = { view s with
        all := insert (s.threadCount + 1) (view s).all
        ready := (s.threadCount + 1) ::ₘ (view s).ready } := by
      have hsame : SameTasks s₁ (s'.log .created t) :=
        hpush.base.sameTasks.trans (.of_records rfl)
      rw [hsame.view_eq, log_currentActive, hpush.base.current, readyIds_log,
        Multiset.coe_eq_coe.mpr hpush.perm, hview₁]
      rfl
    rw [hv]
    exact .spawn fun h => hfresh (List.mem_toFinset.mp h)
  dsimp only
  split
  next hp =>
    have := spawn (pushed_queue (p := .fifo) hwf₁
      (hp.symm.trans hwf₁.policy_eq) hmem rfl)
    exact ⟨_, _, rfl, this.1, .inr this.2⟩
  next hp =>
    have := spawn (pushed_sjf hwf₁ hp _ (QUANTA / 2))
    exact ⟨_, _, rfl, this.1, .inr this.2⟩
  next hp =>
    obtain rfl : policy = .priority := hwf₁.policy_eq.symm.trans hp
    have hpush := pushed_queueFor hwf₁ (by decide) hmem
    rw [queueFor_push] at hpush
    have := spawn hpush
    exact ⟨_, _, rfl, this.1, .inr this.2⟩

-- ========================================================== the refinement

/-- The calls the running execution can make: only a thread's function
returns, and only PRIORITY has a `SIGALRM` handler. -/
def Enabled (s : Library) : Call → Prop
  | .ret _ => s.currentActive ≠ none
  | .alarm _ => s.schedulePolicy = .priority
  | _ => True

/-- Every call the running execution can make goes through, and is
invisible in the view or one move of the pool. -/
theorem call_refines (hwf : Wf policy s) (hI : (view s).Inv) (b : Build)
    {c : Call} (hc : Enabled s c) :
    ∃ out s', call b c s = some (out, s') ∧ Wf policy s'
      ∧ (out = .switched → tids s' = tids s)
      ∧ (view s' = view s ∧ out ≠ .switched
          ∧ (∀ tid o, c = .join tid o → tid ∉ tids s)
        ∨ ∃ w, Move (view s) w (view s') ∧ Treats s c w) := by
  have hinit : ¬s.initialized = false := by rw [hwf.initialized]; decide
  cases c with
  | create func malloc n =>
      obtain ⟨v, s', hcreate, hwf', h⟩ := threadCreate_move hwf hI func malloc n
      refine ⟨_, s', congrArg some hcreate, hwf', nofun, ?_⟩
      rcases h with h | h
      · exact .inl ⟨h, by simp, by simp⟩
      · exact .inr ⟨_, h, rfl⟩
  | yield o =>
      cases hcur : s.currentActive with
      | none =>
          obtain ⟨s', w, hs, hwf', ht, hm, rfl⟩ := mainGivesUp_move hwf hI hcur
          exact ⟨_, s', by
            rw [call, threadYield, if_neg hinit, hcur]
            exact hs, hwf', fun _ => ht,
            .inr ⟨_, hm, .inl ⟨rfl, fun _ h => absurd hcur h⟩⟩⟩
      | some me =>
          obtain ⟨s', w, hs, hwf', ht, hm, hw⟩ := giveUp_yield hwf hI hcur
          refine ⟨_, s', by
            rw [call, threadYield, if_neg hinit, hcur]
            exact hs, hwf', fun _ => ht,
            .inr ⟨w, hm, ?_⟩⟩
          rcases hw with ⟨rfl, hne⟩ | ⟨hpol, hempty, rfl⟩
          · exact .inl ⟨rfl, fun hp _ => hne (hwf.policy_eq ▸ hp)⟩
          · exact .inr ⟨me, hcur, hwf.policy_eq.trans hpol, hempty, rfl⟩
  | join tid o =>
      cases hfind : findByTid s tid with
      | none =>
          refine ⟨.returned EXIT_WITH_ERROR, s, ?_, hwf, nofun,
            .inl ⟨rfl, by simp, ?_⟩⟩
          · rw [call, threadJoin, if_neg hinit, hfind]
          · rintro u o' heq hu
            obtain ⟨rfl, rfl⟩ : tid = u ∧ o = o' := by simpa using heq
            obtain ⟨t, ht⟩ := findByTid_of_mem_tids hu
            rw [hfind] at ht
            cases ht
      | some t =>
          cases hcur : s.currentActive with
          | none =>
              obtain ⟨s', w, hs, hwf', ht, hm, rfl⟩ := mainGivesUp_move hwf hI hcur
              refine ⟨_, s', by
                rw [call, threadJoin, if_neg hinit, hfind, hcur]
                exact hs, hwf', fun _ => ht,
                .inr ⟨_, hm, ?_⟩⟩
              simp only [Treats, hcur]
          | some me =>
              obtain ⟨s', w, hs, hwf', ht, hm, hw⟩ :=
                giveUp_join hwf hI hcur (mem_tids_of_findByTid hfind)
              refine ⟨_, s', by
                rw [call, threadJoin, if_neg hinit, hfind, hcur]
                exact hs, hwf', fun _ => ht,
                .inr ⟨w, hm, ?_⟩⟩
              simp only [Treats, hcur]
              exact ⟨mem_tids_of_findByTid hfind, hw⟩
  | ret o =>
      obtain ⟨me, hcur⟩ := Option.ne_none_iff_exists'.mp hc
      obtain ⟨s', w, hs, hwf', ht, hm, rfl⟩ := giveUp_finished hwf hI hcur
      exact ⟨_, s', by
        rw [call, threadReturn, hcur]
        exact hs, hwf', fun _ => ht,
        .inr ⟨_, hm, rfl⟩⟩
  | alarm o =>
      have hpol : policy ≠ .sjf := by
        rw [← hwf.policy_eq, show s.schedulePolicy = .priority from hc]
        decide
      have hfires : s.schedulePolicy = .priority := hc
      cases hcur : s.currentActive with
      | none =>
          obtain ⟨s', w, hs, hwf', ht, hm, rfl⟩ := mainGivesUp_move hwf hI hcur
          exact ⟨_, s', by
            rw [call, if_pos hfires, sigalarmHandler, hcur]
            exact hs, hwf', fun _ => ht,
            .inr ⟨_, hm, rfl⟩⟩
      | some me =>
          obtain ⟨s', w, hs, hwf', ht, hm, hw⟩ := giveUp_yield hwf hI hcur
          refine ⟨_, s', by
            rw [call, if_pos hfires, sigalarmHandler, hcur]
            exact hs, hwf', fun _ => ht,
            .inr ⟨w, hm, ?_⟩⟩
          rcases hw with ⟨rfl, -⟩ | ⟨h, -⟩
          · rfl
          · exact absurd h hpol

/-- A call that goes through was one the running execution could make. -/
theorem enabled_of_call {c : Call} {r : Outcome × Library}
    (h : call b c s = some r) : Enabled s c := by
  cases c with
  | ret o =>
      intro hnone
      rw [call, threadReturn, hnone] at h
      cases h
  | alarm o =>
      by_contra hp
      rw [call, if_neg (show ¬s.schedulePolicy = .priority from hp)] at h
      cases h
  | _ => exact trivial

end OperatingSystem.Thread
