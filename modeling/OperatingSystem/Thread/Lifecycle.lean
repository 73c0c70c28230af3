/-
The library from one `thread_libinit` to the next: no record is used after
`thread_libterminate` has deleted it.

`thread_libterminate` deletes every record and empties the policy's queues,
but leaves `current_active` alone. Called by main this is NULL, and the state
is as good as new; called by a thread it goes on naming the deleted record,
and the thread's return writes to it (`terminate_dangles`). So the condition
is that no thread calls it while the library is up (`ByMain`).

# Misuse

Everything else may happen in any order: calls before `thread_libinit` and
after `thread_libterminate`, a second `thread_libinit`, one that fails for
want of a stack (it leaves the library up, with whatever it had), joins of
anybody, a return with others waiting. A policy has its own queues; that the
other policies' are empty (`SameOthers`) makes them safe to take over.
-/
import OperatingSystem.Thread.NoThreadLost

namespace OperatingSystem.Thread

open Lib (System Reach)

variable {s s' s'' : Library} {policy : Policy} {b : Build} {o : Outside}
  {tid : Int}

-- ============================================================ the two calls

/-- The value `thread_libinit` is given: `_FIFO`, `_SJF`, `_PRIORITY`. -/
def policyOf (policy : Int) : Option Policy :=
  if policy = 0 then some .fifo
  else if policy = 1 then some .sjf
  else if policy = 2 then some .priority
  else none

/-- The queues `thread_libinit` makes anew, those of the policy. -/
def freshQueues (s : Library) : Library :=
  match s.schedulePolicy with
  | .fifo => { s with readyFIFO := [] }
  | .sjf => { s with readySJF := [] }
  | .priority => { s with
      readyQueueFirst := [], readyQueueSecond := [], readyQueueThird := [] }

/-- `thread_libinit`; the two stacks come from `malloc`. A failure after the
first lines leaves `initialized` TRUE. -/
def threadLibinit (policy : Int) (schedulerStack mainStack : Bool)
    (s : Library) : Outcome × Library :=
  match policyOf policy with
  | none => (.returned EXIT_WITH_ERROR, s)
  | some policy =>
      if s.initialized then (.returned EXIT_WITH_ERROR, s)
      else
        let s : Library :=
          { s with initialized := true, logFile := [], schedulePolicy := policy }
        if schedulerStack = false then (.returned EXIT_WITH_ERROR, s)
        else
          let s : Library := { freshQueues s with
            currentActive := none, threadListHead := []
            threadCount := FIRST_THREAD }
          if s.schedulePolicy = .priority
              ∧ setitimer (QUANTA * MICRO_TO_MILI) < 0 then
            (.returned EXIT_WITH_ERROR, s)
          else if mainStack = false then (.returned EXIT_WITH_ERROR, s)
          else (.returned EXIT_SUCCESS, s)

/-- `util_terminate`. -/
def utilTerminate (s : Library) : Int × Library :=
  if s.initialized = false then (EXIT_WITH_ERROR, s)
  else (EXIT_SUCCESS,
    { freshQueues s with threadListHead := [], initialized := false })

/-- `thread_libterminate`. -/
def threadLibterminate (s : Library) : Outcome × Library :=
  if s.initialized = false then (.returned EXIT_WITH_ERROR, s)
  else
    let r := utilTerminate s
    (.returned r.1, r.2)

/-- What main or a thread does next. -/
inductive LifeCall
  | libinit (policy : Int) (schedulerStack mainStack : Bool)
  | libterminate
  | call (c : Call)
  deriving DecidableEq, Repr

/-- One call. -/
def lifeCall (b : Build) (c : LifeCall) (s : Library) :
    Option (Outcome × Library) :=
  match c with
  | .libinit policy schedulerStack mainStack =>
      some (threadLibinit policy schedulerStack mainStack s)
  | .libterminate => some (threadLibterminate s)
  | .call c => call b c s

/-- The static variables when the program starts. -/
def unused : Library where
  initialized := false
  schedulePolicy := .fifo
  threadCount := 0
  threadListHead := []
  currentActive := none
  readyFIFO := []
  readySJF := []
  readyQueueFirst := []
  readyQueueSecond := []
  readyQueueThird := []
  logFile := []

/-- The program, driven by calls in any order. -/
def lifecycle (b : Build) : System Library LifeCall where
  start := fun s => s = unused
  step := fun c s => (lifeCall b c s).map Prod.snd

/-- No thread calls `thread_libterminate` while the library is up. -/
def ByMain (c : LifeCall) (s : Library) : Prop :=
  c = .libterminate → s.initialized = true → s.currentActive = none

/-- The calls whoever runs can make. -/
def Able (s : Library) : LifeCall → Prop
  | .call c => Enabled s c
  | _ => True

@[simp] theorem freshQueues_initialized (s : Library) :
    (freshQueues s).initialized = s.initialized := by
  unfold freshQueues
  cases s.schedulePolicy <;> rfl

@[simp] theorem freshQueues_currentActive (s : Library) :
    (freshQueues s).currentActive = s.currentActive := by
  unfold freshQueues
  cases s.schedulePolicy <;> rfl

@[simp] theorem freshQueues_threadCount (s : Library) :
    (freshQueues s).threadCount = s.threadCount := by
  unfold freshQueues
  cases s.schedulePolicy <;> rfl

-- ================================================ the other policies' queues

/-- The policy and the queues it does not use are the same. -/
structure SameOthers (s s' : Library) : Prop where
  policy : s'.schedulePolicy = s.schedulePolicy
  fifo : s.schedulePolicy ≠ .fifo → s'.readyFIFO = s.readyFIFO
  sjf : s.schedulePolicy ≠ .sjf → s'.readySJF = s.readySJF
  priority : s.schedulePolicy ≠ .priority →
    s'.readyQueueFirst = s.readyQueueFirst
      ∧ s'.readyQueueSecond = s.readyQueueSecond
      ∧ s'.readyQueueThird = s.readyQueueThird

theorem SameOthers.refl (s : Library) : SameOthers s s :=
  ⟨rfl, fun _ => rfl, fun _ => rfl, fun _ => ⟨rfl, rfl, rfl⟩⟩

theorem SameOthers.trans (h : SameOthers s s') (h' : SameOthers s' s'') :
    SameOthers s s'' := by
  have hp := h.policy
  constructor
  case policy => exact h'.policy.trans hp
  case fifo => exact fun hne => (h'.fifo (hp ▸ hne)).trans (h.fifo hne)
  case sjf => exact fun hne => (h'.sjf (hp ▸ hne)).trans (h.sjf hne)
  case priority =>
    intro hne
    obtain ⟨h₁, h₂, h₃⟩ := h.priority hne
    obtain ⟨h₁', h₂', h₃'⟩ := h'.priority (hp ▸ hne)
    exact ⟨h₁'.trans h₁, h₂'.trans h₂, h₃'.trans h₃⟩

theorem sameOthers_fifo (hp : s.schedulePolicy = .fifo) (q : List Int) :
    SameOthers s { s with readyFIFO := q } :=
  ⟨rfl, fun hne => absurd hp hne, fun _ => rfl, fun _ => ⟨rfl, rfl, rfl⟩⟩

theorem sameOthers_sjf (hp : s.schedulePolicy = .sjf) (q : List Entry) :
    SameOthers s { s with readySJF := q } :=
  ⟨rfl, fun _ => rfl, fun hne => absurd hp hne, fun _ => ⟨rfl, rfl, rfl⟩⟩

theorem sameOthers_priority (hp : s.schedulePolicy = .priority)
    (q₁ q₂ q₃ : List Int) : SameOthers s { s with
      readyQueueFirst := q₁, readyQueueSecond := q₂, readyQueueThird := q₃ } :=
  ⟨rfl, fun _ => rfl, fun _ => rfl, fun hne => absurd hp hne⟩

theorem sameOthers_set {p : Queue} (hp : s.schedulePolicy = p.policy)
    (line : List Int) : SameOthers s (p.set line s) := by
  cases p with
  | fifo => exact sameOthers_fifo hp line
  | first | second | third => exact sameOthers_priority hp _ _ _

/-- Records, `current_active` and the log are no queues. -/
theorem sameOthers_onThread (s : Library) (tid : Int)
    (f : MyThread → MyThread) : SameOthers s (s.onThread tid f) :=
  ⟨rfl, fun _ => rfl, fun _ => rfl, fun _ => ⟨rfl, rfl, rfl⟩⟩

theorem sameOthers_log (s : Library) (e : Event) (t : MyThread) :
    SameOthers s (s.log e t) :=
  ⟨rfl, fun _ => rfl, fun _ => rfl, fun _ => ⟨rfl, rfl, rfl⟩⟩

theorem sameOthers_current (s : Library) (current : Option Int) :
    SameOthers s { s with currentActive := current } :=
  ⟨rfl, fun _ => rfl, fun _ => rfl, fun _ => ⟨rfl, rfl, rfl⟩⟩

theorem sameOthers_chooseNext (o : Outside) (s : Library) :
    SameOthers s (chooseNext o s).2 := by
  unfold chooseNext
  cases hp : s.schedulePolicy with
  | fifo =>
      dsimp only
      unfold chooseNextThreadFIFO
      split
      case h_1 => exact .refl s
      case h_2 => exact sameOthers_fifo hp _
  | sjf =>
      dsimp only
      unfold chooseNextThreadSJF
      split
      case h_1 => exact .refl s
      case h_2 => exact sameOthers_sjf hp _
  | priority =>
      dsimp only
      rcases chooseNextThreadPRI_front o.lucky s with
        ⟨-, heq⟩ | ⟨p, x, rest, hpri, -, heq, -⟩
      · rw [heq]
        exact .refl s
      · rw [heq]
        exact sameOthers_set (hp.trans hpri.symm) rest

theorem sameOthers_wake {id : Int} (h : wake s id = some s') :
    SameOthers s s' := by
  unfold wake at h
  split at h
  case h_1 hp =>
    obtain rfl := Option.some.inj h
    exact sameOthers_fifo hp _
  case h_2 hp =>
    split at h
    case h_1 => cases h
    case h_2 =>
      obtain rfl := Option.some.inj h
      exact sameOthers_sjf hp _
  case h_3 hp =>
    split at h
    case h_1 => cases h
    case h_2 =>
      split_ifs at h
      all_goals
        obtain rfl := Option.some.inj h
        exact sameOthers_priority hp _ _ _

theorem sameOthers_wakeAll (ids : List Int) (h : wakeAll ids s = some s') :
    SameOthers s s' := by
  induction ids generalizing s with
  | nil =>
      obtain rfl := Option.some.inj h
      exact .refl s
  | cons id rest ih =>
      unfold wakeAll at h
      split at h
      case h_1 => cases h
      case h_2 s₁ hwake => exact (sameOthers_wake hwake).trans (ih h)

theorem sameOthers_afterFinished {cur : MyThread} {r : Option Int × Library}
    (h : afterFinished o cur s = some r) : SameOthers s r.2 := by
  unfold afterFinished at h
  split at h
  case h_1 => cases h
  case h_2 s₁ hwake =>
    obtain rfl := Option.some.inj h
    exact ((sameOthers_wakeAll _ hwake).trans
      (sameOthers_onThread s₁ _ _)).trans (sameOthers_chooseNext o _)

theorem sameOthers_afterYield {cur : MyThread} {r : Option Int × Library}
    (h : afterYield b o cur s = some r) : SameOthers s r.2 := by
  unfold afterYield at h
  split at h
  case h_1 hp =>
    obtain rfl := Option.some.inj h
    exact (sameOthers_fifo hp _).trans (sameOthers_chooseNext o _)
  case h_2 hp =>
    have hburst := sameOthers_onThread s cur.tid (measureBurst b o.endTime)
    have hchoose := hburst.trans (sameOthers_chooseNext o _)
    split at h
    case h_1 s₁ heq =>
      obtain rfl := Option.some.inj h
      rw [heq] at hchoose
      exact hchoose
    case h_2 id s₁ heq =>
      rw [heq] at hchoose
      split at h
      case h_1 => cases h
      case h_2 =>
        obtain rfl := Option.some.inj h
        exact hchoose.trans (sameOthers_sjf (hchoose.policy.trans hp) _)
  case h_3 hp =>
    split_ifs at h
    all_goals
      obtain rfl := Option.some.inj h
    · exact (sameOthers_priority hp _ _ _).trans (sameOthers_chooseNext o _)
    · exact (sameOthers_priority hp _ _ _).trans (sameOthers_chooseNext o _)
    · exact (sameOthers_priority hp _ _ _).trans (sameOthers_chooseNext o _)
    · exact .refl s

theorem sameOthers_afterStopped {cur : MyThread} {r : Option Int × Library}
    (h : afterStopped b o cur s = some r) : SameOthers s r.2 := by
  unfold afterStopped at h
  have hburst : SameOthers s (if s.schedulePolicy = .sjf then
      s.onThread cur.tid (measureBurst b o.endTime) else s) := by
    split
    case isTrue => exact sameOthers_onThread s _ _
    case isFalse => exact .refl s
  have hchoose := hburst.trans (sameOthers_chooseNext o _)
  split at h
  case h_1 s₁ heq =>
    obtain rfl := Option.some.inj h
    rw [heq] at hchoose
    exact hchoose
  case h_2 id s₁ heq =>
    rw [heq] at hchoose
    split at h
    case h_1 => cases h
    case h_2 =>
      obtain rfl := Option.some.inj h
      exact hchoose.trans (sameOthers_onThread s₁ _ _)

theorem sameOthers_myScheduler (h : myScheduler b o s = some s') :
    SameOthers s s' := by
  have hnext {r : Option Int × Library} (h : nextThread b o s = some r) :
      SameOthers s r.2 := by
    unfold nextThread at h
    split at h
    case h_1 =>
      obtain rfl := Option.some.inj h
      exact sameOthers_chooseNext o s
    case h_2 tid _ =>
      split at h
      case h_1 => cases h
      case h_2 =>
        have hoff := sameOthers_onThread s tid fun t => { t with active := false }
        split at h
        case h_1 => exact hoff.trans (sameOthers_afterFinished h)
        case h_2 => exact hoff.trans (sameOthers_afterYield h)
        case h_3 => exact hoff.trans (sameOthers_afterStopped h)
        case h_4 => cases h
  unfold myScheduler at h
  split at h
  case h_1 => cases h
  case h_2 s₁ heq =>
    obtain rfl := Option.some.inj h
    exact (hnext heq).trans (sameOthers_current s₁ _)
  case h_3 id s₁ heq =>
    refine (hnext heq).trans ?_
    unfold dispatch at h
    split at h
    case h_1 => cases h
    case h_2 next _ =>
      have hset := (sameOthers_onThread s₁ id fun t => setStartTime o.startTime
        { t with active := true, status := .scheduled }).trans
        (sameOthers_log _ .scheduled next)
      dsimp only at h
      split at h
      all_goals
        obtain rfl := Option.some.inj h
        exact hset.trans (sameOthers_current _ _)

theorem sameOthers_giveUp {e : Event} {f : MyThread → MyThread}
    {r : Outcome × Library} (h : giveUp b o e f tid s = some r) :
    SameOthers s r.2 := by
  unfold giveUp at h
  split at h
  case h_1 => cases h
  case h_2 cur _ =>
    obtain ⟨s₁, hrun, rfl⟩ := Option.map_eq_some_iff.mp h
    exact ((sameOthers_onThread s tid f).trans (sameOthers_log _ e cur)).trans
      (sameOthers_myScheduler hrun)

theorem sameOthers_mainGivesUp {r : Outcome × Library}
    (h : mainGivesUp b o s = some r) : SameOthers s r.2 := by
  obtain ⟨s₁, hrun, rfl⟩ := Option.map_eq_some_iff.mp h
  exact sameOthers_myScheduler hrun

theorem sameOthers_threadCreate (func malloc : Bool) (n : Int) (s : Library) :
    SameOthers s (threadCreate func malloc n s).2 := by
  unfold threadCreate
  split_ifs
  case pos => exact .refl s
  case pos => exact .refl s
  case pos => exact .refl s
  case pos =>
    exact ⟨rfl, fun _ => rfl, fun _ => rfl, fun _ => ⟨rfl, rfl, rfl⟩⟩
  all_goals
    dsimp only
    split
    case h_1 hp =>
      exact ⟨rfl, fun hne => absurd hp hne, fun _ => rfl,
        fun _ => ⟨rfl, rfl, rfl⟩⟩
    case h_2 hp =>
      exact ⟨rfl, fun _ => rfl, fun hne => absurd hp hne,
        fun _ => ⟨rfl, rfl, rfl⟩⟩
    case h_3 hp =>
      exact ⟨rfl, fun _ => rfl, fun _ => rfl, fun hne => absurd hp hne⟩

/-- A call changes no queue but its policy's. -/
theorem sameOthers_call {c : Call} {r : Outcome × Library}
    (h : call b c s = some r) : SameOthers s r.2 := by
  cases c with
  | create func malloc n =>
      obtain rfl := Option.some.inj h
      exact sameOthers_threadCreate func malloc n s
  | yield o =>
      rw [call] at h
      unfold threadYield at h
      split at h
      case isTrue =>
        obtain rfl := Option.some.inj h
        exact .refl s
      case isFalse =>
        split at h
        case h_1 => exact sameOthers_giveUp h
        case h_2 => exact sameOthers_mainGivesUp h
  | join u o =>
      rw [call] at h
      unfold threadJoin at h
      split at h
      case isTrue =>
        obtain rfl := Option.some.inj h
        exact .refl s
      case isFalse =>
        split at h
        case h_1 =>
          obtain rfl := Option.some.inj h
          exact .refl s
        case h_2 =>
          split at h
          case h_1 => exact sameOthers_giveUp h
          case h_2 => exact sameOthers_mainGivesUp h
  | ret o =>
      rw [call] at h
      unfold threadReturn at h
      split at h
      case h_1 => exact sameOthers_giveUp h
      case h_2 => cases h
  | alarm o =>
      rw [call] at h
      split at h
      case isTrue =>
        unfold sigalarmHandler at h
        split at h
        case h_1 => exact sameOthers_giveUp h
        case h_2 => exact sameOthers_mainGivesUp h
      case isFalse => cases h

-- ========================================================== the invariant

/-- No thread is queued. -/
structure NoneQueued (s : Library) : Prop where
  fifo : s.readyFIFO = []
  sjf : s.readySJF = []
  first : s.readyQueueFirst = []
  second : s.readyQueueSecond = []
  third : s.readyQueueThird = []

/-- The queues of the other policies are empty. -/
structure OthersEmpty (s : Library) : Prop where
  fifo : s.schedulePolicy ≠ .fifo → s.readyFIFO = []
  sjf : s.schedulePolicy ≠ .sjf → s.readySJF = []
  priority : s.schedulePolicy ≠ .priority →
    s.readyQueueFirst = [] ∧ s.readyQueueSecond = [] ∧ s.readyQueueThird = []

/-- Down, the library has nothing; up, its tasks are in place. -/
structure Living (s : Library) : Prop where
  others : OthersEmpty s
  count : 0 ≤ s.threadCount
  down : s.initialized = false →
    s.currentActive = none ∧ s.threadListHead = [] ∧ NoneQueued s
  up : s.initialized = true → Placed s.schedulePolicy s

theorem OthersEmpty.same (h : OthersEmpty s) (he : SameOthers s s') :
    OthersEmpty s' := by
  have hp := he.policy
  constructor
  case fifo =>
    intro hne
    exact (he.fifo (hp ▸ hne)).trans (h.fifo (hp ▸ hne))
  case sjf =>
    intro hne
    exact (he.sjf (hp ▸ hne)).trans (h.sjf (hp ▸ hne))
  case priority =>
    intro hne
    obtain ⟨h₁, h₂, h₃⟩ := h.priority (hp ▸ hne)
    obtain ⟨h₁', h₂', h₃'⟩ := he.priority (hp ▸ hne)
    exact ⟨h₁'.trans h₁, h₂'.trans h₂, h₃'.trans h₃⟩

/-- Making the policy's queues anew leaves none queued. -/
theorem OthersEmpty.freshQueues (h : OthersEmpty s) :
    NoneQueued (freshQueues s) := by
  unfold Thread.freshQueues
  split
  case h_1 hp =>
    obtain ⟨h₁, h₂, h₃⟩ := h.priority (by rw [hp]; decide)
    exact ⟨rfl, h.sjf (by rw [hp]; decide), h₁, h₂, h₃⟩
  case h_2 hp =>
    obtain ⟨h₁, h₂, h₃⟩ := h.priority (by rw [hp]; decide)
    exact ⟨h.fifo (by rw [hp]; decide), rfl, h₁, h₂, h₃⟩
  case h_3 hp =>
    exact ⟨h.fifo (by rw [hp]; decide), h.sjf (by rw [hp]; decide), rfl, rfl,
      rfl⟩

theorem NoneQueued.othersEmpty (h : NoneQueued s) : OthersEmpty s :=
  ⟨fun _ => h.fifo, fun _ => h.sjf, fun _ => ⟨h.first, h.second, h.third⟩⟩

theorem NoneQueued.readyIds_eq (h : NoneQueued s) : readyIds s = [] := by
  unfold readyIds
  cases s.schedulePolicy with
  | fifo => exact h.fifo
  | sjf => exact congrArg (List.map Entry.id) h.sjf
  | priority =>
      dsimp only
      rw [h.first, h.second, h.third]
      rfl

/-- A library without threads looks like a new one. -/
theorem NoneQueued.view_eq (h : NoneQueued s) (hlist : s.threadListHead = [])
    (hcur : s.currentActive = none) :
    view s = view (libinit s.schedulePolicy) := by
  have hready : readyIds (libinit s.schedulePolicy) = [] :=
    NoneQueued.readyIds_eq ⟨rfl, rfl, rfl, rfl, rfl⟩
  unfold view tids Finished suspendedOf findByTid
  rw [hlist, hcur, h.readyIds_eq, hready]
  rfl

/-- So it is in order. -/
theorem NoneQueued.living (h : NoneQueued s) (hup : s.initialized = true)
    (hcount : 0 ≤ s.threadCount) (hlist : s.threadListHead = [])
    (hcur : s.currentActive = none) : Living s where
  others := h.othersEmpty
  count := hcount
  down hdown := by
    rw [hup] at hdown
    cases hdown
  up _ := by
    have htids : tids s = [] := by
      unfold tids
      rw [hlist]
      rfl
    refine ⟨⟨hup, rfl, ?_, ?_, hcount, ?_, ?_⟩, ?_⟩
    · rw [htids]
      exact List.nodup_nil
    · rw [htids]
      exact fun u hu => absurd hu List.not_mem_nil
    · rw [hlist]
      exact fun t ht => absurd ht List.not_mem_nil
    · unfold OwnQueues
      rw [hlist]
      exact fun _ t ht => absurd ht List.not_mem_nil
    · rw [h.view_eq hlist hcur]
      exact (full_libinit s.schedulePolicy).toInv

theorem living_unused : Living unused where
  others := ⟨fun _ => rfl, fun _ => rfl, fun _ => ⟨rfl, rfl, rfl⟩⟩
  count := le_rfl
  down _ := ⟨rfl, rfl, rfl, rfl, rfl, rfl, rfl⟩
  up := nofun

/-- Whether `thread_libinit` succeeds or not. -/
theorem Living.libinit (h : Living s) (policy : Int)
    (schedulerStack mainStack : Bool) :
    Living (threadLibinit policy schedulerStack mainStack s).2 := by
  unfold threadLibinit
  split
  case h_1 => exact h
  case h_2 p _ =>
    by_cases hup : s.initialized = true
    · rw [if_pos hup]
      exact h
    · rw [if_neg hup]
      obtain ⟨hcur, hlist, hnone⟩ := h.down (Bool.eq_false_iff.mpr hup)
      have hopen : NoneQueued
          { s with initialized := true, logFile := [], schedulePolicy := p } :=
        ⟨hnone.fifo, hnone.sjf, hnone.first, hnone.second, hnone.third⟩
      dsimp only
      split
      case isTrue => exact hopen.living rfl h.count hlist hcur
      case isFalse =>
        have hfresh := hopen.othersEmpty.freshQueues
        generalize hs : freshQueues { s with
          initialized := true, logFile := [], schedulePolicy := p } = t at *
        have ht : t.initialized = true := by
          rw [← hs, freshQueues_initialized]
        have hready : NoneQueued { t with
            currentActive := none, threadListHead := []
            threadCount := FIRST_THREAD } :=
          ⟨hfresh.fifo, hfresh.sjf, hfresh.first, hfresh.second, hfresh.third⟩
        have hliving := hready.living ht le_rfl rfl rfl
        split
        case isTrue => exact hliving
        case isFalse =>
          split
          case isTrue => exact hliving
          case isFalse => exact hliving

/-- Main takes the library down. -/
theorem Living.libterminate (h : Living s)
    (hmain : s.initialized = true → s.currentActive = none) :
    Living (threadLibterminate s).2 := by
  unfold threadLibterminate
  by_cases hup : s.initialized = true
  · rw [if_neg (by rw [hup]; decide)]
    unfold utilTerminate
    rw [if_neg (by rw [hup]; decide)]
    have hfresh := h.others.freshQueues
    have hcur : (freshQueues s).currentActive = none := by
      rw [freshQueues_currentActive, hmain hup]
    have hcount : 0 ≤ (freshQueues s).threadCount := by
      rw [freshQueues_threadCount]
      exact h.count
    have hnone : NoneQueued { freshQueues s with
        threadListHead := [], initialized := false } :=
      ⟨hfresh.fifo, hfresh.sjf, hfresh.first, hfresh.second, hfresh.third⟩
    exact ⟨hnone.othersEmpty, hcount, fun _ => ⟨hcur, rfl, hnone⟩, nofun⟩
  · rw [if_pos (Bool.eq_false_iff.mpr hup)]
    exact h

/-- While the library is down, every call that can be made changes
nothing. -/
theorem Living.call_down (h : Living s) (hdown : s.initialized = false)
    {c : Call} (hc : Enabled s c) (b : Build) :
    ∃ out, call b c s = some (out, s) := by
  obtain ⟨hcur, hlist, hnone⟩ := h.down hdown
  cases c with
  | create func malloc n =>
      rw [call]
      unfold threadCreate
      split_ifs
      · exact ⟨_, rfl⟩
      · exact ⟨_, rfl⟩
      · exact ⟨_, rfl⟩
  | yield o => exact ⟨_, by rw [call, threadYield, if_pos hdown]⟩
  | join u o => exact ⟨_, by rw [call, threadJoin, if_pos hdown]⟩
  | ret o => exact absurd hcur hc
  | alarm o =>
      have hp : s.schedulePolicy = .priority := hc
      have hchoose : chooseNext o s = (none, s) := by
        unfold chooseNext
        rw [hp]
        rcases chooseNextThreadPRI_front o.lucky s with
          ⟨-, heq⟩ | ⟨p, x, rest, -, hline, -⟩
        · rw [heq]
          rfl
        · have hempty : p.line s = [] := by
            cases p with
            | fifo => exact hnone.fifo
            | first => exact hnone.first
            | second => exact hnone.second
            | third => exact hnone.third
          rw [hempty] at hline
          cases hline
      have hmain : myScheduler b o s = some s := by
        unfold myScheduler nextThread
        rw [hcur, hchoose]
        dsimp only
        rw [← hcur]
      refine ⟨.switched, ?_⟩
      rw [call, if_pos hp, sigalarmHandler, hcur]
      dsimp only
      rw [mainGivesUp, hmain]
      rfl

/-- One call of the library proper. -/
theorem Living.call (h : Living s) {c : Call} (hc : Enabled s c) (b : Build) :
    ∃ r, call b c s = some r ∧ Living r.2 := by
  cases hup : s.initialized with
  | false =>
      obtain ⟨out, hcall⟩ := h.call_down hup hc b
      exact ⟨_, hcall, h⟩
  | true =>
      obtain ⟨hwf, hI⟩ := h.up hup
      obtain ⟨out, s', hcall, hwf', -, hm⟩ := call_refines hwf hI b hc
      have hsame := sameOthers_call hcall
      have hI' : (view s').Inv := by
        rcases hm with ⟨hv, -⟩ | ⟨w, hm, -⟩
        · rw [hv]
          exact hI
        · exact hI.move hm
      refine ⟨_, hcall, h.others.same hsame, hwf'.count, fun hdown => ?_,
        fun _ => ?_⟩
      · rw [hwf'.initialized] at hdown
        cases hdown
      · rw [hwf'.policy_eq]
        exact ⟨hwf', hI'⟩

-- =============================================================== the runs

theorem Living.step (h : Living s) {c : LifeCall} (hok : ByMain c s)
    (hst : (lifecycle b).step c s = some s') : Living s' := by
  obtain ⟨r, hcall, rfl⟩ := Option.map_eq_some_iff.mp hst
  cases c with
  | libinit policy schedulerStack mainStack =>
      obtain rfl := Option.some.inj hcall
      exact h.libinit policy schedulerStack mainStack
  | libterminate =>
      obtain rfl := Option.some.inj hcall
      exact h.libterminate (hok rfl)
  | call c =>
      obtain ⟨r', hcall', hr⟩ := h.call (enabled_of_call hcall) b
      obtain rfl := Option.some.inj (hcall'.symm.trans hcall)
      exact hr

theorem living_of_reach (h : Reach (lifecycle b) ByMain s) : Living s := by
  refine h.invariant ?_ fun c t t' ht hok hst => ht.step hok hst
  intro t ht
  rw [ht]
  exact living_unused

/-- Some ready queue of the library holds `id`. -/
def Queued (s : Library) (id : Int) : Prop :=
  id ∈ s.readyFIFO ∨ id ∈ s.readySJF.map Entry.id ∨ id ∈ s.readyQueueFirst
    ∨ id ∈ s.readyQueueSecond ∨ id ∈ s.readyQueueThird

/-- It is a queue of the policy. -/
theorem OthersEmpty.queued (h : OthersEmpty s) {id : Int} (hid : Queued s id) :
    id ∈ readyIds s := by
  unfold Queued at hid
  unfold readyIds
  cases hp : s.schedulePolicy with
  | fifo =>
      obtain ⟨h₁, h₂, h₃⟩ := h.priority (by rw [hp]; decide)
      rw [h.sjf (by rw [hp]; decide), h₁, h₂, h₃] at hid
      simpa using hid
  | sjf =>
      obtain ⟨h₁, h₂, h₃⟩ := h.priority (by rw [hp]; decide)
      rw [h.fifo (by rw [hp]; decide), h₁, h₂, h₃] at hid
      simpa using hid
  | priority =>
      rw [h.fifo (by rw [hp]; decide), h.sjf (by rw [hp]; decide)] at hid
      simpa using hid

/-- In every run in which no thread takes the library down: who runs, who is
ready and who waits has a record in `thread_list_head`, and every call that
can be made follows such pointers only. -/
theorem records_alive (h : Reach (lifecycle b) ByMain s) :
    (∀ tid, s.currentActive = some tid → tid ∈ tids s)
      ∧ (∀ id, Queued s id → id ∈ tids s)
      ∧ (∀ t ∈ s.threadListHead, ∀ id ∈ t.suspendedQueue, id ∈ tids s)
      ∧ ∀ c, Able s c → ∃ r, lifeCall b c s = some r := by
  have hliving := living_of_reach h
  have hable : ∀ c, Able s c → ∃ r, lifeCall b c s = some r := by
    intro c hc
    cases c with
    | libinit policy schedulerStack mainStack => exact ⟨_, rfl⟩
    | libterminate => exact ⟨_, rfl⟩
    | call c =>
        obtain ⟨r, hcall, -⟩ := hliving.call hc b
        exact ⟨r, hcall⟩
  cases hup : s.initialized with
  | false =>
      obtain ⟨hcur, hlist, hnone⟩ := hliving.down hup
      refine ⟨?_, ?_, ?_, hable⟩
      · rw [hcur]
        exact nofun
      · intro id hid
        unfold Queued at hid
        rw [hnone.fifo, hnone.sjf, hnone.first, hnone.second, hnone.third]
          at hid
        simp at hid
      · rw [hlist]
        exact fun t ht => absurd ht List.not_mem_nil
  | true =>
      obtain ⟨hwf, hI⟩ := hliving.up hup
      refine ⟨fun tid hcur => ?_, fun id hid => ready_known hI id ?_,
        fun t ht id hid => suspended_known hI t.tid id ?_, hable⟩
      · obtain ⟨t, hfind, -⟩ := current_record hI hcur
        exact mem_tids_of_findByTid hfind
      · exact hliving.others.queued hid
      · unfold suspendedOf
        rw [findByTid_of_mem hwf.nodup ht]
        exact hid

/-- One thread runs and returns, main takes the library down and up again
under another policy. -/
theorem records_alive_again : ∃ s, Reach (lifecycle .plain) ByMain s
    ∧ s.schedulePolicy = .sjf
    ∧ ∀ c, Able s c → ∃ r, lifeCall .plain c s = some r := by
  let calls : List LifeCall := [.libinit 0 true true,
    .call (.create true true 0), .call (.yield zero), .call (.ret zero)]
  let s₁ := (Lib.run (lifecycle .plain) calls unused).get (by decide +kernel)
  let s₂ := ((lifecycle .plain).step .libterminate s₁).get (by decide +kernel)
  let s₃ := ((lifecycle .plain).step (.libinit 1 true true) s₂).get
    (by decide +kernel)
  have h₁ : Reach (lifecycle .plain) ByMain s₁ :=
    ⟨unused, rfl, Lib.run_steps calls
      ⟨nofun, fun _ _ => ⟨nofun, fun _ _ => ⟨nofun, fun _ _ =>
        ⟨nofun, fun _ _ => trivial⟩⟩⟩⟩ (Option.some_get _).symm⟩
  have h₂ : Reach (lifecycle .plain) ByMain s₂ :=
    h₁.step (fun _ _ => by decide +kernel) (Option.some_get _).symm
  have h₃ : Reach (lifecycle .plain) ByMain s₃ :=
    h₂.step (a := .libinit 1 true true) nofun (Option.some_get _).symm
  exact ⟨s₃, h₃, by decide +kernel, (records_alive h₃).2.2.2⟩

/-- A thread that takes the library down leaves `current_active` on its
deleted record, and cannot return. -/
theorem terminate_dangles (hup : s.initialized = true)
    (hcur : s.currentActive = some tid) :
    ∃ s', (lifecycle b).step .libterminate s = some s'
      ∧ s'.currentActive = some tid ∧ tids s' = []
      ∧ Able s' (.call (.ret o)) ∧ lifeCall b (.call (.ret o)) s' = none := by
  have hkept : (freshQueues s).currentActive = some tid := by
    rw [freshQueues_currentActive, hcur]
  refine ⟨{ freshQueues s with threadListHead := [], initialized := false },
    ?_, hkept, rfl, ?_, ?_⟩
  · show some (threadLibterminate s).2 = _
    unfold threadLibterminate utilTerminate
    rw [hup, if_neg (by decide), if_neg (by decide)]
  · show (freshQueues s).currentActive ≠ none
    rw [hkept]
    exact nofun
  · show threadReturn b o _ = none
    unfold threadReturn
    dsimp only
    rw [hkept]
    rfl

/-- The one thread there is calls `thread_libterminate`. -/
theorem records_deleted : ∃ s, Reach (lifecycle .plain) Lib.Anything s
    ∧ s.currentActive = some 1 ∧ 1 ∉ tids s
    ∧ Able s (.call (.ret zero)) ∧ lifeCall .plain (.call (.ret zero)) s = none := by
  let calls : List LifeCall := [.libinit 0 true true,
    .call (.create true true 0), .call (.yield zero), .libterminate]
  let s := (Lib.run (lifecycle .plain) calls unused).get (by decide +kernel)
  have hs : Reach (lifecycle .plain) Lib.Anything s :=
    Lib.reach_of_run calls rfl (Option.some_get _).symm
  have hcur : s.currentActive = some 1 := by decide +kernel
  refine ⟨s, hs, hcur, by decide +kernel, ?_, by decide +kernel⟩
  show s.currentActive ≠ none
  rw [hcur]
  exact nofun

end OperatingSystem.Thread
