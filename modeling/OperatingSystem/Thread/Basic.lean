/-
The user-level thread library of hw4: `userthread.cpp`, and
`userthread_aging.cpp`, which differs in `set_estimated_time` only.

# Granularity

The processor changes hands only inside `my_scheduler`, which every
library call that gives it up enters through `swapcontext` or
`setcontext`, and which runs to its decision without interruption. So a
step is one whole call made by whoever runs — the thread
`current_active`, or main while it is NULL — up to the point where
`my_scheduler` has switched to the next execution. Under PRIORITY a
`SIGALRM` that arrives in user code is one more such call, made by the
handler.

# What a pointer is

Records of `thread_list_head` are never removed outside
`thread_libterminate`, and their tids are distinct, so a `myThread*` is
the tid of its record. Following a pointer that is NULL or has no record
is `none`, and so is using `nextID` unassigned.

The clock, `rand` and the heap's choice among equal entries come from
outside (`Outside`); `double`s are exact rationals. Saved contexts, stacks
and the signal mask are not part of this state.
-/
import OperatingSystem.Lib.Transition
import Mathlib.Algebra.Order.Field.Rat

namespace OperatingSystem.Thread

/-- `_FIFO`, `_SJF`, `_PRIORITY`. -/
inductive Policy
  | fifo
  | sjf
  | priority
  deriving DecidableEq, Repr

/-- `CREATED`, `SCHEDULED`, `STOPPED`, `FINISHED`, `YIELD`. -/
inductive Status
  | created
  | scheduled
  | stopped
  | finished
  | yield
  deriving DecidableEq, Repr

/-- The two builds of the library. -/
inductive Build
  | plain
  | aging
  deriving DecidableEq, Repr

/-- `FIRST`, `SECOND`, `THIRD`. -/
def FIRST : Int := 0
def SECOND : Int := 1
def THIRD : Int := 2

def QUANTA : Int := 100
def DEFAULT_RUNTIME : Int := 50
def FIRST_THREAD : Int := 0
def NOT_FOUND : Int := -1
def EXIT_SUCCESS : Int := 0
def EXIT_WITH_ERROR : Int := -1
def MICRO_TO_MILI : Int := 1000

/-- `myThread`. -/
structure MyThread where
  tid : Int
  status : Status
  active : Bool
  priority : Int
  yieldCount : Int
  waitTid : Int
  timeFirst : Int
  timeSecond : Int
  timeThird : Int
  estimatedRuntime : Rat
  startTime : Int
  endTime : Int
  suspendedQueue : List Int
  deriving DecidableEq, Repr

/-- `thread_PRI_SJF_FIFO`, an entry of `ready_SJF`. -/
structure Entry where
  id : Int
  priority : Int
  deriving DecidableEq, Repr

/-- What a line of `log_file` reports. -/
inductive Event
  | created
  | stopped
  | finished
  | scheduled
  deriving DecidableEq, Repr

/-- A line of `log_file`, its timestamp left out. -/
structure LogLine where
  event : Event
  tid : Int
  priority : Int
  deriving DecidableEq, Repr

/-- The static variables of the library. `currentActive` is the tid of
the record `current_active` points to. -/
structure Library where
  initialized : Bool
  schedulePolicy : Policy
  threadCount : Int
  threadListHead : List MyThread
  currentActive : Option Int
  readyFIFO : List Int
  readySJF : List Entry
  readyQueueFirst : List Int
  readyQueueSecond : List Int
  readyQueueThird : List Int
  logFile : List LogLine
  deriving DecidableEq, Repr

/-- What the world outside answers during one call: the clock (in
milliseconds) when a burst ends and when one starts, `rand() % 19`, and
which of the minimal entries `std::priority_queue` has on top. -/
structure Outside where
  endTime : Int
  startTime : Int
  lucky : Int
  tie : Nat
  deriving DecidableEq, Repr

-- ========================================================== the records

/-- `find_by_tid`. -/
def findByTid (s : Library) (tid : Int) : Option MyThread :=
  s.threadListHead.find? fun t => t.tid == tid

/-- Write through a `myThread*`. -/
def Library.onThread (s : Library) (tid : Int) (f : MyThread → MyThread) :
    Library :=
  { s with threadListHead :=
      s.threadListHead.map fun t => if t.tid = tid then f t else t }

/-- Append a line to `log_file`. -/
def Library.log (s : Library) (e : Event) (t : MyThread) : Library :=
  { s with logFile := s.logFile ++ [⟨e, t.tid, t.priority⟩] }

-- ============================================================ estimates

/-- Conversion of a `double` to `int`: towards zero. -/
def truncate (q : Rat) : Int := q.num.tdiv q.den

/-- `average_time_so_far`. -/
def averageTimeSoFar (s : Library) : Rat :=
  match s.threadListHead with
  | [] => DEFAULT_RUNTIME
  | l => (l.map MyThread.estimatedRuntime).sum / s.threadCount

/-- `set_start_time`. -/
def setStartTime (now : Int) (t : MyThread) : MyThread :=
  { t with startTime := now }

/-- `set_end_time`. -/
def setEndTime (now : Int) (t : MyThread) : MyThread :=
  { t with endTime := now }

/-- `set_estimated_time` of `userthread.cpp`: the last three bursts. -/
def setEstimatedTimePlain (t : MyThread) : MyThread :=
  let count := t.yieldCount.tmod 3
  let t :=
    if count = FIRST then { t with timeFirst := t.endTime - t.startTime }
    else if count = SECOND then
      { t with timeSecond := t.endTime - t.startTime }
    else { t with timeThird := t.endTime - t.startTime }
  if t.yieldCount > 2 then
    { t with estimatedRuntime :=
        ((t.timeFirst + t.timeSecond + t.timeThird).tdiv 3 : Int) }
  else t

/-- `set_estimated_time` of `userthread_aging.cpp`, with `ALPHA` 0.5. -/
def setEstimatedTimeAging (t : MyThread) : MyThread :=
  let time := t.endTime - t.startTime
  { t with estimatedRuntime := time * (1 / 2) + t.estimatedRuntime * (1 / 2) }

/-- `set_estimated_time`. -/
def setEstimatedTime : Build → MyThread → MyThread
  | .plain => setEstimatedTimePlain
  | .aging => setEstimatedTimeAging

/-- What the SJF branches of `my_scheduler` do to the thread that gives up
the processor: measure its burst and count it. -/
def measureBurst (b : Build) (now : Int) (t : MyThread) : MyThread :=
  let t := setEstimatedTime b (setEndTime now t)
  { t with yieldCount := t.yieldCount + 1 }

-- ===================================================== the ready queues

/-- `choose_next_thread_FIFO`. -/
def chooseNextThreadFIFO (s : Library) : Int × Library :=
  match s.readyFIFO with
  | [] => (NOT_FOUND, s)
  | id :: rest => (id, { s with readyFIFO := rest })

/-- The entries no other entry precedes under `compare`. -/
def minimal (q : List Entry) : List Entry :=
  q.filter fun e => q.all fun x => decide (e.priority ≤ x.priority)

/-- `choose_next_thread_SJF`: `none` is the NULL it returns on an empty
queue. -/
def chooseNextThreadSJF (tie : Nat) (s : Library) : Option Entry × Library :=
  match (minimal s.readySJF)[tie % (minimal s.readySJF).length]? with
  | none => (none, s)
  | some e => (some e, { s with readySJF := s.readySJF.erase e })

/-- `choose_next_thread_PRI`. -/
def chooseNextThreadPRI (lucky : Int) (s : Library) : Int × Library :=
  if lucky < 4 then
    match s.readyQueueThird, s.readyQueueFirst, s.readyQueueSecond with
    | id :: rest, _, _ => (id, { s with readyQueueThird := rest })
    | [], id :: rest, _ => (id, { s with readyQueueFirst := rest })
    | [], [], id :: rest => (id, { s with readyQueueSecond := rest })
    | [], [], [] => (NOT_FOUND, s)
  else if lucky < 10 then
    match s.readyQueueSecond, s.readyQueueFirst, s.readyQueueThird with
    | id :: rest, _, _ => (id, { s with readyQueueSecond := rest })
    | [], id :: rest, _ => (id, { s with readyQueueFirst := rest })
    | [], [], id :: rest => (id, { s with readyQueueThird := rest })
    | [], [], [] => (NOT_FOUND, s)
  else
    match s.readyQueueFirst, s.readyQueueSecond, s.readyQueueThird with
    | id :: rest, _, _ => (id, { s with readyQueueFirst := rest })
    | [], id :: rest, _ => (id, { s with readyQueueSecond := rest })
    | [], [], id :: rest => (id, { s with readyQueueThird := rest })
    | [], [], [] => (NOT_FOUND, s)

/-- The tests on what a `choose_next_thread` returned, `nextID ==
NOT_FOUND` or `temp == NULL`: `none` when nothing is ready. -/
def found (id : Int) : Option Int := if id = NOT_FOUND then none else some id

/-- The `choose_next_thread` of the policy. -/
def chooseNext (o : Outside) (s : Library) : Option Int × Library :=
  match s.schedulePolicy with
  | .fifo =>
      let r := chooseNextThreadFIFO s
      (found r.1, r.2)
  | .sjf =>
      let r := chooseNextThreadSJF o.tie s
      (r.1.map Entry.id, r.2)
  | .priority =>
      let r := chooseNextThreadPRI o.lucky s
      (found r.1, r.2)

/-- A thread of a suspended queue goes back to a ready queue. -/
def wake (s : Library) (id : Int) : Option Library :=
  match s.schedulePolicy with
  | .fifo => some { s with readyFIFO := s.readyFIFO ++ [id] }
  | .sjf =>
      match findByTid s id with
      | none => none
      | some t =>
          some { s with readySJF :=
            s.readySJF ++ [⟨id, truncate t.estimatedRuntime⟩] }
  | .priority =>
      match findByTid s id with
      | none => none
      | some t =>
          if t.priority = FIRST - 1 then
            some { s with readyQueueFirst := s.readyQueueFirst ++ [id] }
          else if t.priority = SECOND - 1 then
            some { s with readyQueueSecond := s.readyQueueSecond ++ [id] }
          else some { s with readyQueueThird := s.readyQueueThird ++ [id] }

/-- The loop that empties a suspended queue, front first. -/
def wakeAll : List Int → Library → Option Library
  | [], s => some s
  | id :: rest, s =>
      match wake s id with
      | none => none
      | some s => wakeAll rest s

-- ========================================================= my_scheduler

/-- The FINISHED branches: wake whoever waits for `cur`, then choose. -/
def afterFinished (o : Outside) (cur : MyThread) (s : Library) :
    Option (Option Int × Library) :=
  match wakeAll cur.suspendedQueue s with
  | none => none
  | some s =>
      some (chooseNext o
        (s.onThread cur.tid fun t => { t with suspendedQueue := [] }))

/-- The YIELD branches. FIFO and PRIORITY put the thread back before they
choose; SJF chooses first and puts it back only if something was ready. -/
def afterYield (b : Build) (o : Outside) (cur : MyThread) (s : Library) :
    Option (Option Int × Library) :=
  match s.schedulePolicy with
  | .fifo =>
      some (chooseNext o { s with readyFIFO := s.readyFIFO ++ [cur.tid] })
  | .sjf =>
      match chooseNext o (s.onThread cur.tid (measureBurst b o.endTime)) with
      | (none, s) => some (none, s)
      | (some id, s) =>
          match findByTid s cur.tid with
          | none => none
          | some cur =>
              some (some id, { s with readySJF :=
                s.readySJF ++ [⟨cur.tid, truncate cur.estimatedRuntime⟩] })
  | .priority =>
      if cur.priority = FIRST - 1 then
        some (chooseNext o
          { s with readyQueueFirst := s.readyQueueFirst ++ [cur.tid] })
      else if cur.priority = SECOND - 1 then
        some (chooseNext o
          { s with readyQueueSecond := s.readyQueueSecond ++ [cur.tid] })
      else if cur.priority = THIRD - 1 then
        some (chooseNext o
          { s with readyQueueThird := s.readyQueueThird ++ [cur.tid] })
      else some (none, s)

/-- The STOPPED branches: choose, and if something was ready join the
suspended queue of the thread waited for. -/
def afterStopped (b : Build) (o : Outside) (cur : MyThread) (s : Library) :
    Option (Option Int × Library) :=
  match chooseNext o
      (if s.schedulePolicy = .sjf then
        s.onThread cur.tid (measureBurst b o.endTime)
      else s) with
  | (none, s) => some (none, s)
  | (some id, s) =>
      match findByTid s cur.waitTid with
      | none => none
      | some _ =>
          some (some id, s.onThread cur.waitTid fun t =>
            { t with suspendedQueue := t.suspendedQueue ++ [cur.tid] })

/-- `my_scheduler` up to its choice: `some (some id, s)` when `nextID` is
`id`, `some (none, s)` when it leaves for main. -/
def nextThread (b : Build) (o : Outside) (s : Library) :
    Option (Option Int × Library) :=
  match s.currentActive with
  | none => some (chooseNext o s)
  | some tid =>
      match findByTid s tid with
      | none => none
      | some cur =>
          let s := s.onThread tid fun t => { t with active := false }
          match cur.status with
          | .finished => afterFinished o cur s
          | .yield => afterYield b o cur s
          | .stopped => afterStopped b o cur s
          | _ => none

/-- `setitimer` fails on a microsecond count outside its range. -/
def setitimer (usec : Int) : Int :=
  if 0 ≤ usec ∧ usec < 1000000 then EXIT_SUCCESS else EXIT_WITH_ERROR

/-- The rest of `my_scheduler`: switch to thread `id`, or to main if the
quantum's timer could not be set. -/
def dispatch (o : Outside) (id : Int) (s : Library) : Option Library :=
  match findByTid s id with
  | none => none
  | some next =>
      let s := (s.onThread id fun t =>
        setStartTime o.startTime { t with active := true, status := .scheduled })
      let s := s.log .scheduled next
      if s.schedulePolicy = .priority
          ∧ setitimer (QUANTA * MICRO_TO_MILI) < 0 then
        some { s with currentActive := none }
      else some { s with currentActive := some id }

/-- `my_scheduler`, up to its switch to the next execution. -/
def myScheduler (b : Build) (o : Outside) (s : Library) : Option Library :=
  match nextThread b o s with
  | none => none
  | some (none, s) => some { s with currentActive := none }
  | some (some id, s) => dispatch o id s

-- ============================================================ the calls

/-- How a call ends for its caller: it returns at once, or the processor
has gone through `my_scheduler`. -/
inductive Outcome
  | returned (value : Int)
  | switched
  deriving DecidableEq, Repr

/-- `thread_create`; `func` says that the function pointer is not NULL,
`malloc` that the stack could be allocated. -/
def threadCreate (func malloc : Bool) (priority : Int) (s : Library) :
    Outcome × Library :=
  if priority ≠ FIRST - 1 ∧ priority ≠ SECOND - 1 ∧ priority ≠ THIRD - 1 then
    (.returned EXIT_WITH_ERROR, s)
  else if func = false then (.returned EXIT_WITH_ERROR, s)
  else if s.initialized = false then (.returned EXIT_WITH_ERROR, s)
  else
    let s : Library := { s with threadCount := s.threadCount + 1 }
    if malloc = false then (.returned EXIT_WITH_ERROR, s)
    else
      let t : MyThread := {
        tid := s.threadCount, status := .created, active := false
        priority := priority, yieldCount := 0, waitTid := NOT_FOUND
        timeFirst := 0, timeSecond := 0, timeThird := 0
        estimatedRuntime := averageTimeSoFar s
        startTime := 0, endTime := 0, suspendedQueue := [] }
      let s : Library :=
        { s with threadListHead := s.threadListHead ++ [t] }
      let s : Library :=
        match s.schedulePolicy with
        | .fifo => { s with readyFIFO := s.readyFIFO ++ [t.tid] }
        | .sjf => { s with readySJF := s.readySJF ++ [⟨t.tid, QUANTA / 2⟩] }
        | .priority =>
            if priority = FIRST - 1 then
              { s with readyQueueFirst := s.readyQueueFirst ++ [t.tid] }
            else if priority = SECOND - 1 then
              { s with readyQueueSecond := s.readyQueueSecond ++ [t.tid] }
            else { s with readyQueueThird := s.readyQueueThird ++ [t.tid] }
      (.returned s.threadCount, s.log .created t)

/-- The running thread records why it gives up the processor and enters
`my_scheduler`. -/
def giveUp (b : Build) (o : Outside) (e : Event) (f : MyThread → MyThread)
    (tid : Int) (s : Library) : Option (Outcome × Library) :=
  match findByTid s tid with
  | none => none
  | some cur =>
      (myScheduler b o ((s.onThread tid f).log e cur)).map (.switched, ·)

/-- Main enters `my_scheduler`; its own context is not saved. -/
def mainGivesUp (b : Build) (o : Outside) (s : Library) :
    Option (Outcome × Library) :=
  (myScheduler b o s).map (.switched, ·)

/-- `thread_yield`. -/
def threadYield (b : Build) (o : Outside) (s : Library) :
    Option (Outcome × Library) :=
  if s.initialized = false then some (.returned EXIT_WITH_ERROR, s)
  else
    match s.currentActive with
    | some tid =>
        giveUp b o .stopped (fun t => { t with status := .yield }) tid s
    | none => mainGivesUp b o s

/-- `thread_join`. -/
def threadJoin (b : Build) (o : Outside) (tid : Int) (s : Library) :
    Option (Outcome × Library) :=
  if s.initialized = false then some (.returned EXIT_WITH_ERROR, s)
  else
    match findByTid s tid with
    | none => some (.returned EXIT_WITH_ERROR, s)
    | some _ =>
        match s.currentActive with
        | some me =>
            giveUp b o .stopped
              (fun t => { t with status := .stopped, waitTid := tid }) me s
        | none => mainGivesUp b o s

/-- `thread_wrapper` after the thread's function has returned. -/
def threadReturn (b : Build) (o : Outside) (s : Library) :
    Option (Outcome × Library) :=
  match s.currentActive with
  | some tid =>
      giveUp b o .finished (fun t => { t with status := .finished }) tid s
  | none => none

/-- `sigalarm_handler`. -/
def sigalarmHandler (b : Build) (o : Outside) (s : Library) :
    Option (Outcome × Library) :=
  match s.currentActive with
  | some tid =>
      giveUp b o .stopped (fun t => { t with status := .yield }) tid s
  | none => mainGivesUp b o s

/-- What the running execution can do next. -/
inductive Call
  | create (func malloc : Bool) (priority : Int)
  | yield (o : Outside)
  | join (tid : Int) (o : Outside)
  | ret (o : Outside)
  | alarm (o : Outside)
  deriving DecidableEq, Repr

/-- One call. Only `thread_libinit(_PRIORITY)` installs the handler, and
only a thread's function returns through `thread_wrapper`. -/
def call (b : Build) (c : Call) (s : Library) : Option (Outcome × Library) :=
  match c with
  | .create func malloc priority => some (threadCreate func malloc priority s)
  | .yield o => threadYield b o s
  | .join tid o => threadJoin b o tid s
  | .ret o => threadReturn b o s
  | .alarm o =>
      if s.schedulePolicy = .priority then sigalarmHandler b o s else none

/-- What `thread_libinit` leaves behind when it succeeds. -/
def libinit (policy : Policy) : Library where
  initialized := true
  schedulePolicy := policy
  threadCount := FIRST_THREAD
  threadListHead := []
  currentActive := none
  readyFIFO := []
  readySJF := []
  readyQueueFirst := []
  readyQueueSecond := []
  readyQueueThird := []
  logFile := []

/-- The library after a successful `thread_libinit(policy)`, driven by
calls in any order. -/
def system (b : Build) (policy : Policy) : Lib.System Library Call where
  start := fun s => s = libinit policy
  step := fun c s => (call b c s).map Prod.snd

end OperatingSystem.Thread
