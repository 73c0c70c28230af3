/-
The thread library under PRIORITY with `SIGALRM`, step by step.

# Granularity

There is one processor, and only the alarm takes it from the code that
runs. So code between a `sigprocmask(SIG_BLOCK)` and the next
`sigprocmask(SIG_UNBLOCK)` is one step, and everywhere else a step is one
access to what others can see: `current_active`, a status, a queue, a context
object. A line of `log_file` goes with the access beside it. A frame is a
call that has been started and the point it is at; what a call has read into
a local variable stands in its frame. User code is `user`: it may call the
library, return or be interrupted at any time.

# Contexts

A context is the frames of a stack and whether `SIGALRM` is blocked.
`makecontext` leaves the mask of its object alone, `swapcontext` saves the
running one. The kernel blocks the signal while its handler runs, until the
handler unblocks it, and gives the interrupted code its own mask back.
`my_scheduler` always starts afresh on the same stack: what an interrupted
`my_scheduler` has left there is overwritten, and a thread whose context is
there has no next step.

`returned` is a history variable: the threads whose functions have returned.
No step reads it. The values the calls return are left out.
-/
import OperatingSystem.Thread.Contexts

namespace OperatingSystem.Thread.Alarm

-- ========================================================= program points

/-- `thread_create`: at its first line, behind `thread_count++`, where the
record is filled in, behind the `push_back` on `thread_list_head`, behind the
one on a ready queue. -/
inductive CreatePoint
  | entered (func malloc : Bool) (priority : Int)
  | counted (priority : Int) (blocked : Bool)
  | filled (t : MyThread) (blocked : Bool)
  | listed (tid priority : Int)
  | queued (tid : Int)
  deriving DecidableEq, Repr

/-- `thread_yield` of a thread: at its first line, behind the SIG_UNBLOCK,
in front of its `swapcontext` and behind it. -/
inductive YieldPoint
  | entered
  | marked (tid : Int)
  | made (tid : Int)
  | resumed
  deriving DecidableEq, Repr

/-- `thread_join`, whose `makecontext` is in front of the SIG_UNBLOCK. -/
inductive JoinPoint
  | entered (tid : Int)
  | made
  | resumed
  deriving DecidableEq, Repr

/-- `thread_wrapper`: at its first line, while `func` runs, behind it,
behind the write of FINISHED, in front of its `swapcontext` and behind
it. -/
inductive WrapperPoint
  | start
  | calling
  | returned
  | marked
  | made
  | ended
  deriving DecidableEq, Repr

/-- `sigalarm_handler`: in front of its `swapcontext`, where the alarm is
unblocked again, and behind it. -/
inductive HandlerPoint
  | made (tid : Int)
  | resumed
  deriving DecidableEq, Repr

/-- `my_scheduler`: in front of the SIG_BLOCK; where nothing is ready,
behind the SIG_UNBLOCK and behind the write of `current_active`; where
`nextID` has been found, behind the SIG_UNBLOCK and in front of the
`swapcontext`; behind a `swapcontext`. -/
inductive SchedulerPoint
  | entered
  | idle
  | leaving
  | chosen (id : Int)
  | made (id : Int)
  | switched
  deriving DecidableEq, Repr

/-- A call that has been started; `idle` is what `thread_yield` and
`thread_join` have in common where `current_active` is NULL, in front of
`makecontext` and behind it, `libinit` is `thread_libinit` behind its
`getcontext(&main_context)`. -/
inductive Frame
  | user
  | libinit
  | create (p : CreatePoint)
  | yield (p : YieldPoint)
  | join (p : JoinPoint)
  | idle (made : Bool)
  | wrapper (tid : Int) (p : WrapperPoint)
  | handler (p : HandlerPoint)
  | scheduler (p : SchedulerPoint)
  deriving DecidableEq, Repr

/-- The frames of a stack, the innermost first, and the signal mask. -/
structure Context where
  frames : List Frame
  blocked : Bool
  deriving DecidableEq, Repr

/-- The library and the processor. -/
structure Machine where
  lib : Library
  cpu : Lib.Contexts Slot Context
  returned : List Int

namespace Machine

/-- The frames of the code that runs. -/
def frames (m : Machine) : List Frame := m.cpu.pc.frames

/-- The running code goes on with these frames. -/
def goto (m : Machine) (frames : List Frame) : Machine :=
  { m with cpu := { m.cpu with pc := ⟨frames, m.cpu.pc.blocked⟩ } }

/-- The same, `SIGALRM` being blocked or not from here on. -/
def mask (m : Machine) (blocked : Bool) (frames : List Frame) : Machine :=
  { m with cpu := { m.cpu with pc := ⟨frames, blocked⟩ } }

def setLib (m : Machine) (s : Library) : Machine := { m with lib := s }

/-- `makecontext(&scheduler_context, my_scheduler, 0)`. -/
def makeScheduler (m : Machine) : Machine :=
  let entry : Context :=
    ⟨[.scheduler .entered], (m.cpu.saved .scheduler).blocked⟩
  { m with cpu := m.cpu.makecontext .scheduler entry }

/-- `swapcontext(&out, &into)`, with these frames where it returns. -/
def swap (m : Machine) (out into : Slot) (frames : List Frame) : Machine :=
  { m with cpu := (m.goto frames).cpu.swapcontext out into }

-- ============================================================= the calls

/-- `thread_create`. A record that stands behind another one with its tid is
never found. -/
def threadCreate (p : CreatePoint) (rest : List Frame) (m : Machine) :
    Machine :=
  match p with
  | .entered func malloc priority =>
      if priority ≠ FIRST - 1 ∧ priority ≠ SECOND - 1 ∧ priority ≠ THIRD - 1
      then m.goto rest
      else if func = false then m.goto rest
      else if m.lib.initialized = false then m.goto rest
      else
        let m := m.setLib { m.lib with threadCount := m.lib.threadCount + 1 }
        if malloc = false then m.goto rest
        else m.goto (.create (.counted priority m.cpu.pc.blocked) :: rest)
  | .counted priority blocked =>
      let t := newThread priority (averageTimeSoFar m.lib) m.lib.threadCount
      m.goto (.create (.filled t blocked) :: rest)
  | .filled t blocked =>
      let cpu := match findByTid m.lib t.tid with
        | none => m.cpu.makecontext (.thread t.tid)
            ⟨[.wrapper t.tid .start], blocked⟩
        | some _ => m.cpu
      let s : Library :=
        { m.lib with threadListHead := m.lib.threadListHead ++ [t] }
      let m : Machine := { m with lib := s, cpu := cpu }
      m.goto (.create (.listed t.tid t.priority) :: rest)
  | .listed tid priority =>
      let id := m.lib.threadCount
      let s : Library :=
        if priority = FIRST - 1 then
          { m.lib with readyQueueFirst := m.lib.readyQueueFirst ++ [id] }
        else if priority = SECOND - 1 then
          { m.lib with readyQueueSecond := m.lib.readyQueueSecond ++ [id] }
        else { m.lib with readyQueueThird := m.lib.readyQueueThird ++ [id] }
      (m.setLib s).goto (.create (.queued tid) :: rest)
  | .queued tid =>
      match findByTid m.lib tid with
      | none => m.goto rest
      | some t => (m.setLib (m.lib.log .created t)).goto rest

/-- `thread_yield`. -/
def threadYield (p : YieldPoint) (rest : List Frame) (m : Machine) :
    Option Machine :=
  match p with
  | .entered =>
      if m.lib.initialized = false then some (m.goto rest)
      else
        match m.lib.currentActive with
        | none => some (m.mask false (.idle false :: rest))
        | some tid =>
            match findByTid m.lib tid with
            | none => none
            | some _ =>
                let s := m.lib.onThread tid fun t =>
                  { t with status := .yield }
                some ((m.setLib s).mask false (.yield (.marked tid) :: rest))
  | .marked tid =>
      match findByTid m.lib tid with
      | none => none
      | some t =>
          some ((m.setLib (m.lib.log .stopped t)).makeScheduler.goto
            (.yield (.made tid) :: rest))
  | .made tid =>
      some (m.swap (.thread tid) .scheduler (.yield .resumed :: rest))
  | .resumed => some (m.goto rest)

/-- `thread_join`. It returns at once if nobody has this tid, and leaves
`SIGALRM` blocked. -/
def threadJoin (p : JoinPoint) (rest : List Frame) (m : Machine) :
    Option Machine :=
  match p with
  | .entered tid =>
      if m.lib.initialized = false then some (m.goto rest)
      else
        match findByTid m.lib tid with
        | none => some (m.mask true rest)
        | some _ =>
            match m.lib.currentActive with
            | none => some (m.mask false (.idle false :: rest))
            | some me =>
                match findByTid m.lib me with
                | none => none
                | some cur =>
                    let s := m.lib.onThread me fun t =>
                      { t with status := .stopped, waitTid := tid }
                    some ((m.setLib (s.log .stopped cur)).makeScheduler.mask
                      false (.join .made :: rest))
  | .made =>
      match m.lib.currentActive with
      | none => none
      | some me =>
          some (m.swap (.thread me) .scheduler (.join .resumed :: rest))
  | .resumed => some (m.goto rest)

/-- Where `current_active` is NULL: `makecontext`, and then
`setcontext(&scheduler_context)`, which saves nothing. -/
def leaveMain (made : Bool) (rest : List Frame) (m : Machine) : Machine :=
  match made with
  | false => m.makeScheduler.goto (.idle true :: rest)
  | true => { m with cpu := m.cpu.setcontext .scheduler }

/-- `thread_wrapper`. Where it returns the process ends, `uc_link` being
0. -/
def threadWrapper (tid : Int) (p : WrapperPoint) (rest : List Frame)
    (m : Machine) : Option Machine :=
  match p with
  | .start => some (m.goto (.user :: .wrapper tid .calling :: rest))
  | .calling => none
  | .returned =>
      match m.lib.currentActive with
      | none => some (m.goto (.wrapper tid .ended :: rest))
      | some me =>
          match findByTid m.lib me with
          | none => none
          | some _ =>
              let s := m.lib.onThread me fun t =>
                { t with status := .finished }
              some ((m.setLib s).goto (.wrapper tid .marked :: rest))
  | .marked =>
      match m.lib.currentActive.bind (findByTid m.lib) with
      | none => none
      | some t =>
          some ((m.setLib (m.lib.log .finished t)).makeScheduler.goto
            (.wrapper tid .made :: rest))
  | .made =>
      match m.lib.currentActive with
      | none => none
      | some me =>
          some (m.swap (.thread me) .scheduler (.wrapper tid .ended :: rest))
  | .ended => none

/-- What the kernel and `sigalarm_handler` do up to its SIG_UNBLOCK, or to
its `setcontext` where `current_active` is NULL. -/
def alarm (m : Machine) : Option Machine :=
  if m.cpu.pc.blocked then none
  else
    match m.lib.currentActive with
    | none =>
        let m := m.makeScheduler
        some { m with cpu := m.cpu.setcontext .scheduler }
    | some tid =>
        match findByTid m.lib tid with
        | none => none
        | some cur =>
            let s := m.lib.onThread tid fun t => { t with status := .yield }
            some ((m.setLib (s.log .stopped cur)).makeScheduler.mask false
              (.handler (.made tid) :: m.frames))

/-- The rest of `sigalarm_handler`. Code that has been interrupted had
`SIGALRM` unblocked. -/
def sigalarmHandler (p : HandlerPoint) (rest : List Frame) (m : Machine) :
    Machine :=
  match p with
  | .made tid => m.swap (.thread tid) .scheduler (.handler .resumed :: rest)
  | .resumed => m.mask false rest

-- ========================================================== my_scheduler

/-- The YIELD branch finds no queue for the thread. -/
def Misfiled (s : Library) : Prop :=
  ∃ cur ∈ s.currentActive.bind (findByTid s),
    cur.status = .yield ∧ ¬ValidPriority cur.priority

instance (s : Library) : Decidable (Misfiled s) :=
  inferInstanceAs
    (Decidable (∃ cur ∈ s.currentActive.bind (findByTid s), _))

/-- A thread's context is on the scheduler's stack. -/
def overwritten (m : Machine) (tid : Int) : Bool :=
  match (m.cpu.saved (.thread tid)).frames.getLast? with
  | some (.scheduler _) => true
  | _ => false

/-- `my_scheduler`. -/
def myScheduler (b : Build) (o : Outside) (p : SchedulerPoint)
    (rest : List Frame) (m : Machine) : Option Machine :=
  match p with
  | .entered =>
      -- `current_thread` is read in front of the SIG_BLOCK, but an alarm
      -- between the two does not come back here
      match nextThread b o m.lib with
      | none => none
      | some (none, s) =>
          if Misfiled m.lib then
            let s : Library := { s with currentActive := none }
            some ((m.setLib s).makeScheduler.mask true
              (.scheduler .leaving :: rest))
          else
            some ((m.setLib s).makeScheduler.mask false
              (.scheduler .idle :: rest))
      | some (some id, s) =>
          match dispatch o id s with
          | none => none
          | some s =>
              match s.currentActive with
              | none =>
                  -- the timer could not be set
                  some ((m.setLib s).makeScheduler.mask false
                    (.scheduler .leaving :: rest))
              | some _ =>
                  some ((m.setLib s).mask false
                    (.scheduler (.chosen id) :: rest))
  | .idle =>
      let s : Library := { m.lib with currentActive := none }
      some ((m.setLib s).goto (.scheduler .leaving :: rest))
  | .leaving => some (m.swap .scheduler .main (.scheduler .switched :: rest))
  | .chosen id => some (m.makeScheduler.goto (.scheduler (.made id) :: rest))
  | .made id =>
      if m.overwritten id then none
      else some (m.swap .scheduler (.thread id) (.scheduler .switched :: rest))
  | .switched => none

-- ============================================================== the steps

/-- The next step of the library. -/
def next (b : Build) (o : Outside) (m : Machine) : Option Machine :=
  match m.frames with
  | .libinit :: rest => some (m.goto rest)
  | .create p :: rest => some (m.threadCreate p rest)
  | .yield p :: rest => m.threadYield p rest
  | .join p :: rest => m.threadJoin p rest
  | .idle made :: rest => some (m.leaveMain made rest)
  | .wrapper tid p :: rest => m.threadWrapper tid p rest
  | .handler p :: rest => some (m.sigalarmHandler p rest)
  | .scheduler p :: rest => m.myScheduler b o p rest
  | _ => none

/-- User code calls the library. -/
def call (m : Machine) (f : Frame) : Option Machine :=
  match m.frames with
  | .user :: rest => some (m.goto (f :: .user :: rest))
  | _ => none

/-- A thread's function returns. -/
def ret (m : Machine) : Option Machine :=
  match m.frames with
  | .user :: .wrapper tid .calling :: rest =>
      some (({ m with returned := tid :: m.returned } : Machine).goto
        (.wrapper tid .returned :: rest))
  | _ => none

end Machine

/-- What happens next: user code calls the library or returns, a call goes
on, or the alarm goes off. -/
inductive Action
  | create (func malloc : Bool) (priority : Int)
  | yield
  | join (tid : Int)
  | ret
  | next (o : Outside)
  | alarm
  deriving DecidableEq, Repr

/-- One step. -/
def step (b : Build) (a : Action) (m : Machine) : Option Machine :=
  match a with
  | .create func malloc priority =>
      m.call (.create (.entered func malloc priority))
  | .yield => m.call (.yield .entered)
  | .join tid => m.call (.join (.entered tid))
  | .ret => m.ret
  | .next o => m.next b o
  | .alarm => m.alarm

/-- `thread_libinit(_PRIORITY)` behind its `getcontext(&main_context)`:
`blocked` is the mask main has set, `stale` what every other object holds
before it is first written. -/
def libinit (blocked : Bool) (stale : Slot → Context) : Machine where
  lib := Thread.libinit .priority
  cpu := (Lib.Contexts.makecontext .scheduler
    ⟨[.scheduler .entered], blocked⟩
    ⟨⟨[.libinit, .user], blocked⟩, stale⟩).getcontext .main
  returned := []

/-- The machine after a successful `thread_libinit(_PRIORITY)`. -/
def machine (b : Build) : Lib.System Machine Action where
  start := fun m => ∃ blocked stale, m = libinit blocked stale
  step := step b

end OperatingSystem.Thread.Alarm
