/-
Under FIFO and PRIORITY time decides nothing.

`untimed` forgets what is measured: when the bursts of a thread begin and
end, how long they take, and what is estimated from them. The rest of the
library goes its way without it: the scheduler does the same on it whatever
the clock shows and whichever build measures (`myScheduler_untimed`), and
`thread_create`, which copies an average of the estimates into the new record,
copies it to where it is forgotten (`threadCreate_untimed`). So two runs with
the same calls, and the same draws of `rand` under PRIORITY, agree on
everything else (`time_decides_nothing`). Only SJF looks at estimates.
-/
import OperatingSystem.Lib.Simulation
import OperatingSystem.Thread.Entered

namespace OperatingSystem.Thread

variable {b b' : Build} {o : Outside} {s s' : Library} {policy : Policy}
  {f g : MyThread → MyThread} {tid : Int} {cur : MyThread}

-- ========================================================== what is forgotten

def MyThread.untimed (t : MyThread) : MyThread :=
  { t with
    timeFirst := 0, timeSecond := 0, timeThird := 0
    estimatedRuntime := 0, startTime := 0, endTime := 0 }

/-- The library without anything that is measured. -/
def Library.untimed (s : Library) : Library :=
  { s with threadListHead := s.threadListHead.map MyThread.untimed }

/-- What FIFO and PRIORITY ask the world outside. -/
def Outside.asked (policy : Policy) (o : Outside) : Outside :=
  ⟨0, 0, if policy = .priority then o.lucky else 0, 0⟩

def Call.asked (policy : Policy) : Call → Call
  | .create func malloc priority => .create func malloc priority
  | .yield o => .yield (o.asked policy)
  | .join tid o => .join tid (o.asked policy)
  | .ret o => .ret (o.asked policy)
  | .alarm o => .alarm (o.asked policy)

/-- The library, with what its calls have answered. -/
def answered (b : Build) (policy : Policy) :
    Lib.System (Library × List Outcome) Call where
  start x := x = (libinit policy, [])
  step c x := (call b c x.1).map fun r => (r.2, x.2 ++ [r.1])

-- ============================================================ the records

theorem findByTid_untimed (s : Library) (tid : Int) :
    findByTid s.untimed tid = (findByTid s tid).map MyThread.untimed :=
  List.find?_map ..

theorem onThread_untimed (hfg : ∀ t, g t.untimed = (f t).untimed) :
    s.untimed.onThread tid g = (s.onThread tid f).untimed := by
  unfold Library.onThread Library.untimed
  simp only [List.map_map]
  refine congrArg (fun l => { s with threadListHead := l })
    (List.map_congr_left fun t _ => ?_)
  show (if t.tid = tid then g t.untimed else t.untimed)
    = MyThread.untimed (if t.tid = tid then f t else t)
  rw [apply_ite MyThread.untimed, hfg]

-- ============================================================== the queues

theorem chooseNextThreadFIFO_untimed (s : Library) :
    chooseNextThreadFIFO s.untimed
      = (chooseNextThreadFIFO s).map id Library.untimed := by
  unfold chooseNextThreadFIFO
  rw [show s.untimed.readyFIFO = s.readyFIFO from rfl]
  cases s.readyFIFO <;> rfl

theorem chooseNextThreadPRI_untimed (lucky : Int) (s : Library) :
    chooseNextThreadPRI lucky s.untimed
      = (chooseNextThreadPRI lucky s).map id Library.untimed := by
  unfold chooseNextThreadPRI
  rw [show s.untimed.readyQueueFirst = s.readyQueueFirst from rfl,
    show s.untimed.readyQueueSecond = s.readyQueueSecond from rfl,
    show s.untimed.readyQueueThird = s.readyQueueThird from rfl]
  split
  case isTrue =>
    cases s.readyQueueThird <;> cases s.readyQueueFirst
      <;> cases s.readyQueueSecond <;> rfl
  case isFalse =>
    split
    case isTrue =>
      cases s.readyQueueSecond <;> cases s.readyQueueFirst
        <;> cases s.readyQueueThird <;> rfl
    case isFalse =>
      cases s.readyQueueFirst <;> cases s.readyQueueSecond
        <;> cases s.readyQueueThird <;> rfl

theorem chooseNext_untimed (hs : s.schedulePolicy = policy)
    (hpolicy : policy ≠ .sjf) (o : Outside) :
    chooseNext (o.asked policy) s.untimed
      = (chooseNext o s).map id Library.untimed := by
  unfold chooseNext
  rw [show s.untimed.schedulePolicy = policy from hs, hs]
  cases policy with
  | fifo =>
      dsimp only
      rw [chooseNextThreadFIFO_untimed]
      rfl
  | sjf => exact absurd rfl hpolicy
  | priority =>
      dsimp only [Outside.asked]
      rw [if_pos rfl, chooseNextThreadPRI_untimed]
      rfl

theorem wake_untimed (hs : s.schedulePolicy = policy)
    (hpolicy : policy ≠ .sjf) (id : Int) :
    wake s.untimed id = (wake s id).map Library.untimed := by
  unfold wake
  rw [show s.untimed.schedulePolicy = policy from hs, hs]
  cases policy with
  | fifo => rfl
  | sjf => exact absurd rfl hpolicy
  | priority =>
      dsimp only
      rw [findByTid_untimed]
      cases findByTid s id with
      | none => rfl
      | some t =>
          simp only [Option.map_some]
          rw [show t.untimed.priority = t.priority from rfl]
          split_ifs <;> rfl

theorem wake_policy (h : wake s tid = some s') :
    s'.schedulePolicy = s.schedulePolicy := by
  unfold wake at h
  split at h
  next => exact Option.some.inj h ▸ rfl
  next =>
    split at h
    next => cases h
    next => exact Option.some.inj h ▸ rfl
  next =>
    split at h
    next => cases h
    next => split_ifs at h <;> exact Option.some.inj h ▸ rfl

theorem wakeAll_untimed (hpolicy : policy ≠ .sjf) : ∀ (ids : List Int)
    {s : Library}, s.schedulePolicy = policy →
    wakeAll ids s.untimed = (wakeAll ids s).map Library.untimed
      ∧ ∀ s', wakeAll ids s = some s' → s'.schedulePolicy = policy
  | [], _, hs => ⟨rfl, fun _ h => Option.some.inj h ▸ hs⟩
  | id :: rest, s, hs => by
      unfold wakeAll
      rw [wake_untimed hs hpolicy id]
      cases hwake : wake s id with
      | none => exact ⟨rfl, fun _ h => by cases h⟩
      | some s₁ => exact wakeAll_untimed hpolicy rest ((wake_policy hwake).trans hs)

-- ========================================================== the scheduler

theorem afterFinished_untimed (hs : s.schedulePolicy = policy)
    (hpolicy : policy ≠ .sjf) (o : Outside) (cur : MyThread) :
    afterFinished (o.asked policy) cur.untimed s.untimed
      = (afterFinished o cur s).map (Prod.map id Library.untimed) := by
  unfold afterFinished
  obtain ⟨hwoken, hkept⟩ := wakeAll_untimed hpolicy cur.suspendedQueue hs
  rw [show cur.untimed.suspendedQueue = cur.suspendedQueue from rfl, hwoken]
  cases hwake : wakeAll cur.suspendedQueue s with
  | none => rfl
  | some s₁ =>
      simp only [Option.map_some]
      rw [onThread_untimed (f := fun t => { t with suspendedQueue := [] })
          fun _ => rfl,
        chooseNext_untimed (show Library.schedulePolicy (s₁.onThread _ _) = _
          from hkept s₁ hwake) hpolicy]
      rfl

theorem afterYield_untimed (hs : s.schedulePolicy = policy)
    (hpolicy : policy ≠ .sjf) (b : Build) (o : Outside) (cur : MyThread) :
    afterYield .plain (o.asked policy) cur.untimed s.untimed
      = (afterYield b o cur s).map (Prod.map id Library.untimed) := by
  unfold afterYield
  rw [show s.untimed.schedulePolicy = policy from hs, hs]
  cases policy with
  | fifo =>
      exact congrArg some (chooseNext_untimed (s := { s with
        schedulePolicy := .fifo
        readyFIFO := s.readyFIFO ++ [cur.tid] }) rfl hpolicy o)
  | sjf => exact absurd rfl hpolicy
  | priority =>
      dsimp only
      rw [show cur.untimed.priority = cur.priority from rfl]
      split_ifs
      · exact congrArg some (chooseNext_untimed (s := { s with
          schedulePolicy := .priority
          readyQueueFirst := s.readyQueueFirst ++ [cur.tid] }) rfl hpolicy o)
      · exact congrArg some (chooseNext_untimed (s := { s with
          schedulePolicy := .priority
          readyQueueSecond := s.readyQueueSecond ++ [cur.tid] }) rfl hpolicy o)
      · exact congrArg some (chooseNext_untimed (s := { s with
          schedulePolicy := .priority
          readyQueueThird := s.readyQueueThird ++ [cur.tid] }) rfl hpolicy o)
      · rfl

theorem afterStopped_untimed (hs : s.schedulePolicy = policy)
    (hpolicy : policy ≠ .sjf) (b : Build) (o : Outside) (cur : MyThread) :
    afterStopped .plain (o.asked policy) cur.untimed s.untimed
      = (afterStopped b o cur s).map (Prod.map id Library.untimed) := by
  unfold afterStopped
  rw [show s.untimed.schedulePolicy = policy from hs, hs, if_neg hpolicy,
    if_neg hpolicy, chooseNext_untimed hs hpolicy]
  obtain ⟨r, s₁⟩ := chooseNext o s
  cases r with
  | none => rfl
  | some next =>
      dsimp only [Prod.map, id_eq]
      rw [show cur.untimed.waitTid = cur.waitTid from rfl,
        show cur.untimed.tid = cur.tid from rfl, findByTid_untimed]
      cases findByTid s₁ cur.waitTid with
      | none => rfl
      | some t =>
          refine congrArg (fun s => some (some next, s)) ?_
          exact onThread_untimed fun _ => rfl

theorem nextThread_untimed (hs : s.schedulePolicy = policy)
    (hpolicy : policy ≠ .sjf) (b : Build) (o : Outside) :
    nextThread .plain (o.asked policy) s.untimed
      = (nextThread b o s).map (Prod.map id Library.untimed) := by
  unfold nextThread
  rw [show s.untimed.currentActive = s.currentActive from rfl]
  cases s.currentActive with
  | none => exact congrArg some (chooseNext_untimed hs hpolicy o)
  | some tid =>
      dsimp only
      rw [findByTid_untimed]
      cases findByTid s tid with
      | none => rfl
      | some cur =>
          simp only [Option.map_some]
          rw [show cur.untimed.status = cur.status from rfl,
            onThread_untimed (f := fun t => { t with active := false })
              fun _ => rfl]
          have hs' : (s.onThread tid fun t =>
              { t with active := false }).schedulePolicy = policy := hs
          cases cur.status with
          | finished => exact afterFinished_untimed hs' hpolicy o cur
          | yield => exact afterYield_untimed hs' hpolicy b o cur
          | stopped => exact afterStopped_untimed hs' hpolicy b o cur
          | created | scheduled => rfl

theorem dispatch_untimed (policy : Policy) (o : Outside) (id : Int)
    (s : Library) : dispatch (o.asked policy) id s.untimed
      = (dispatch o id s).map Library.untimed := by
  unfold dispatch
  rw [findByTid_untimed]
  cases findByTid s id with
  | none => rfl
  | some next =>
      simp only [Option.map_some]
      rw [onThread_untimed (f := fun t => setStartTime o.startTime
        { t with active := true, status := .scheduled }) fun _ => rfl]
      rw [apply_ite (Option.map Library.untimed)]
      rfl

/-- The scheduler decides without a clock. -/
theorem myScheduler_untimed (hs : s.schedulePolicy = policy)
    (hpolicy : policy ≠ .sjf) (b : Build) (o : Outside) :
    myScheduler .plain (o.asked policy) s.untimed
      = (myScheduler b o s).map Library.untimed := by
  unfold myScheduler
  rw [nextThread_untimed hs hpolicy b o]
  cases nextThread b o s with
  | none => rfl
  | some r =>
      obtain ⟨id, s₁⟩ := r
      cases id with
      | none => rfl
      | some id => exact dispatch_untimed policy o id s₁

-- ============================================================== the calls

/-- What is left of the answer of a call. -/
def seen (r : Outcome × Library) : Outcome × Library := r.map id Library.untimed

theorem giveUp_untimed (hs : s.schedulePolicy = policy)
    (hpolicy : policy ≠ .sjf) (b : Build) (o : Outside) (e : Event)
    (hf : ∀ t, f t.untimed = (f t).untimed) (tid : Int) :
    giveUp .plain (o.asked policy) e f tid s.untimed
      = (giveUp b o e f tid s).map seen := by
  unfold giveUp
  rw [findByTid_untimed]
  cases findByTid s tid with
  | none => rfl
  | some cur =>
      have hsched := myScheduler_untimed (s := (s.onThread tid f).log e cur)
        hs hpolicy b o
      simp only [Option.map_some]
      rw [onThread_untimed (f := f) hf, Option.map_map]
      refine (congrArg (Option.map _) hsched).trans ?_
      rw [Option.map_map]
      rfl

theorem mainGivesUp_untimed (hs : s.schedulePolicy = policy)
    (hpolicy : policy ≠ .sjf) (b : Build) (o : Outside) :
    mainGivesUp .plain (o.asked policy) s.untimed
      = (mainGivesUp b o s).map seen := by
  unfold mainGivesUp
  rw [myScheduler_untimed hs hpolicy b o, Option.map_map, Option.map_map]
  rfl

theorem threadYield_untimed (hs : s.schedulePolicy = policy)
    (hpolicy : policy ≠ .sjf) (b : Build) (o : Outside) :
    threadYield .plain (o.asked policy) s.untimed
      = (threadYield b o s).map seen := by
  unfold threadYield
  rw [show s.untimed.initialized = s.initialized from rfl,
    show s.untimed.currentActive = s.currentActive from rfl]
  split
  case isTrue => rfl
  case isFalse =>
    cases s.currentActive with
    | none => exact mainGivesUp_untimed hs hpolicy b o
    | some tid =>
        refine giveUp_untimed hs hpolicy b o _ ?_ tid
        exact fun _ => rfl

theorem threadJoin_untimed (hs : s.schedulePolicy = policy)
    (hpolicy : policy ≠ .sjf) (b : Build) (o : Outside) (tid : Int) :
    threadJoin .plain (o.asked policy) tid s.untimed
      = (threadJoin b o tid s).map seen := by
  unfold threadJoin
  rw [show s.untimed.initialized = s.initialized from rfl,
    show s.untimed.currentActive = s.currentActive from rfl, findByTid_untimed]
  split
  case isTrue => rfl
  case isFalse =>
    cases findByTid s tid with
    | none => rfl
    | some _ =>
        cases s.currentActive with
        | none => exact mainGivesUp_untimed hs hpolicy b o
        | some me =>
            refine giveUp_untimed hs hpolicy b o _ ?_ me
            exact fun _ => rfl

theorem threadReturn_untimed (hs : s.schedulePolicy = policy)
    (hpolicy : policy ≠ .sjf) (b : Build) (o : Outside) :
    threadReturn .plain (o.asked policy) s.untimed
      = (threadReturn b o s).map seen := by
  unfold threadReturn
  rw [show s.untimed.currentActive = s.currentActive from rfl]
  cases s.currentActive with
  | none => rfl
  | some tid =>
      refine giveUp_untimed hs hpolicy b o _ ?_ tid
      exact fun _ => rfl

theorem sigalarmHandler_untimed (hs : s.schedulePolicy = policy)
    (hpolicy : policy ≠ .sjf) (b : Build) (o : Outside) :
    sigalarmHandler .plain (o.asked policy) s.untimed
      = (sigalarmHandler b o s).map seen := by
  unfold sigalarmHandler
  rw [show s.untimed.currentActive = s.currentActive from rfl]
  cases s.currentActive with
  | none => exact mainGivesUp_untimed hs hpolicy b o
  | some tid =>
      refine giveUp_untimed hs hpolicy b o _ ?_ tid
      exact fun _ => rfl

theorem untimed_idem (s : Library) : s.untimed.untimed = s.untimed := by
  unfold Library.untimed
  rw [List.map_map]
  rfl

theorem enqueued_untimed (n tid : Int) (s : Library) :
    (enqueued n tid s).untimed = enqueued n tid s.untimed := by
  unfold enqueued
  rw [show s.untimed.schedulePolicy = s.schedulePolicy from rfl]
  cases s.schedulePolicy with
  | fifo | sjf => rfl
  | priority =>
      dsimp only
      rw [apply_ite Library.untimed, apply_ite Library.untimed]
      rfl

/-- The new record starts with an average of what is forgotten. -/
theorem created_untimed (n : Int) (q q' : Rat) (s : Library) :
    (created n q s.untimed).untimed = (created n q' s).untimed := by
  have hrecorded : (recorded n q s.untimed).untimed
      = (recorded n q' s).untimed := by
    unfold recorded Library.untimed
    simp only [List.map_append, List.map_map]
    rfl
  have hlog (n tid : Int) (q : Rat) (s : Library) :
      (s.log .created (newThread n q tid)).untimed
        = s.untimed.log .created (newThread n 0 tid) := rfl
  unfold created
  rw [hlog, hlog, enqueued_untimed, enqueued_untimed, hrecorded]
  rfl

/-- What a `thread_create` that succeeds answers. -/
theorem created_count (n : Int) (q : Rat) (s : Library) :
    (created n q s).threadCount = s.threadCount + 1 :=
  (sameBase_enqueued n _ (recorded n q s)).1.count

theorem threadCreate_untimed (func malloc : Bool) (n : Int) (s : Library) :
    seen (threadCreate func malloc n s.untimed)
      = seen (threadCreate func malloc n s) := by
  unfold threadCreate
  rw [show s.untimed.initialized = s.initialized from rfl]
  by_cases hpriority : n ≠ FIRST - 1 ∧ n ≠ SECOND - 1 ∧ n ≠ THIRD - 1
  case pos =>
    rw [if_pos hpriority, if_pos hpriority]
    exact congrArg (Prod.mk _) (untimed_idem s)
  case neg =>
  rw [if_neg hpriority, if_neg hpriority]
  by_cases hfunc : func = false
  case pos =>
    rw [if_pos hfunc, if_pos hfunc]
    exact congrArg (Prod.mk _) (untimed_idem s)
  case neg =>
  rw [if_neg hfunc, if_neg hfunc]
  by_cases hinit : s.initialized = false
  case pos =>
    rw [if_pos hinit, if_pos hinit]
    exact congrArg (Prod.mk _) (untimed_idem s)
  case neg =>
  rw [if_neg hinit, if_neg hinit]
  by_cases hmalloc : malloc = false
  case pos =>
    dsimp only
    rw [if_pos hmalloc, if_pos hmalloc]
    exact congrArg (Prod.mk _) (untimed_idem { s with
      threadCount := s.threadCount + 1 })
  case neg =>
  dsimp only
  rw [if_neg hmalloc, if_neg hmalloc]
  refine Prod.ext (congrArg Outcome.returned ?_) (created_untimed n _ _ s)
  exact (created_count n _ s.untimed).trans (created_count n _ s).symm

theorem call_untimed (hs : s.schedulePolicy = policy) (hpolicy : policy ≠ .sjf)
    (b : Build) (c : Call) :
    (call .plain (c.asked policy) s.untimed).map seen
      = (call b c s).map seen := by
  have hseen (r : Option (Outcome × Library)) :
      (r.map seen).map seen = r.map seen := by
    rw [Option.map_map]
    exact congrArg (Option.map · r)
      (funext fun r => congrArg (Prod.mk r.1) (untimed_idem r.2))
  cases c with
  | create func malloc n =>
      exact congrArg some (threadCreate_untimed func malloc n s)
  | yield o =>
      rw [← hseen (call b (.yield o) s)]
      exact congrArg (Option.map seen) (threadYield_untimed hs hpolicy b o)
  | join tid o =>
      rw [← hseen (call b (.join tid o) s)]
      exact congrArg (Option.map seen) (threadJoin_untimed hs hpolicy b o tid)
  | ret o =>
      rw [← hseen (call b (.ret o) s)]
      exact congrArg (Option.map seen) (threadReturn_untimed hs hpolicy b o)
  | alarm o =>
      rw [← hseen (call b (.alarm o) s)]
      refine congrArg (Option.map seen) ?_
      unfold call Call.asked
      dsimp only
      rw [show s.untimed.schedulePolicy = s.schedulePolicy from rfl,
        apply_ite (Option.map seen), sigalarmHandler_untimed hs hpolicy b o]
      rfl

-- =============================================================== the runs

/-- Two runs so far: everything but what is measured is the same. -/
structure Alike (policy : Policy) (x y : Library × List Outcome) : Prop where
  left : Placed policy x.1
  right : Placed policy y.1
  untimed : x.1.untimed = y.1.untimed
  answers : x.2 = y.2

theorem Placed.call {c : Call} {r : Outcome × Library} (h : Placed policy s)
    (hcall : Thread.call b c s = some r) : Placed policy r.2 :=
  (h.step (congrArg (Option.map Prod.snd) hcall)).1

/-- One call in either run. -/
theorem Alike.step (hpolicy : policy ≠ .sjf) {x y : Library × List Outcome}
    (h : Alike policy x y) {c c' : Call}
    (hc : c.asked policy = c'.asked policy) :
    Option.Rel (Alike policy) ((answered b policy).step c x)
      ((answered b' policy).step c' y) := by
  have hcalls : (Thread.call b c x.1).map seen
      = (Thread.call b' c' y.1).map seen := by
    rw [← call_untimed h.left.wf.policy_eq hpolicy b c, hc, h.untimed]
    exact call_untimed h.right.wf.policy_eq hpolicy b' c'
  show Option.Rel _ ((Thread.call b c x.1).map _) ((Thread.call b' c' y.1).map _)
  cases hx : Thread.call b c x.1 with
  | none =>
      rw [hx] at hcalls
      rw [Option.map_eq_none_iff.mp hcalls.symm]
      exact .none
  | some r =>
      rw [hx] at hcalls
      obtain ⟨r', hy, hr⟩ := Option.map_eq_some_iff.mp hcalls.symm
      obtain ⟨hout, hlib⟩ := Prod.mk.inj hr
      rw [hy]
      refine .some ⟨h.left.call hx, h.right.call hy, hlib.symm, ?_⟩
      exact congrArg₂ (fun outs out => outs ++ [out]) h.answers hout.symm

/-- Under FIFO and PRIORITY neither the clock nor the way bursts are measured
decides anything: runs of the two builds, or of one build at different
speeds, with the same calls (and draws of `rand` under PRIORITY) can make the
same calls, get the same answers, write the same `log_file` and leave the
same queues, statuses and running thread. -/
theorem time_decides_nothing (hpolicy : policy ≠ .sjf) (b b' : Build)
    {calls calls' : List Call}
    (hcalls : calls.map (Call.asked policy) = calls'.map (Call.asked policy)) :
    (Lib.run (answered b policy) calls (libinit policy, [])).map
        (Prod.map Library.untimed id)
      = (Lib.run (answered b' policy) calls' (libinit policy, [])).map
        (Prod.map Library.untimed id) := by
  have hacts : List.Forall₂ (fun c c' => c.asked policy = c'.asked policy)
      calls calls' := by
    have hmapped : List.Forall₂ (· = ·) (calls.map (Call.asked policy))
        (calls'.map (Call.asked policy)) := by
      rw [hcalls]
      exact List.forall₂_refl _
    exact List.forall₂_map_right_iff.mp (List.forall₂_map_left_iff.mp hmapped)
  have hstart : Alike policy (libinit policy, []) (libinit policy, []) :=
    ⟨placed_libinit policy, placed_libinit policy, rfl, rfl⟩
  have hrel := Lib.run_related (S := answered b policy)
    (T := answered b' policy) (fun _ _ _ _ hc h => h.step hpolicy hc) hacts
    hstart
  generalize Lib.run (answered b policy) calls _ = x,
    Lib.run (answered b' policy) calls' _ = y at hrel ⊢
  cases hrel with
  | none => rfl
  | some h => exact congrArg some (Prod.ext h.untimed h.answers)

/-- Two threads that take turns, at two speeds. -/
theorem time_decides_nothing_turns :
    (Lib.run (answered .plain .fifo)
        [.create true true 0, .create true true 1, .yield ⟨0, 7, 3, 0⟩,
          .yield ⟨11, 12, 9, 1⟩] (libinit .fifo, [])).map
        (Prod.map Library.untimed id)
      = (Lib.run (answered .aging .fifo)
        [.create true true 0, .create true true 1, .yield ⟨0, 900, 18, 2⟩,
          .yield ⟨1000, 1001, 0, 0⟩] (libinit .fifo, [])).map
        (Prod.map Library.untimed id)
      ∧ (Lib.run (answered .plain .fifo)
        [.create true true 0, .create true true 1, .yield ⟨0, 7, 3, 0⟩,
          .yield ⟨11, 12, 9, 1⟩] (libinit .fifo, [])).map
          (fun x => x.1.currentActive) = some (some 2) :=
  ⟨time_decides_nothing (by decide) .plain .aging rfl, by decide +kernel⟩

end OperatingSystem.Thread
