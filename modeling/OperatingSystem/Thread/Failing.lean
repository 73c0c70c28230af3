/-
Calls of the thread library that fail.

A process is the library, up or down, under any policy, with the signal mask:
whether `SIGALRM` is blocked. `getcontext` and `swapcontext` save the mask in
their object, `swapcontext` and `setcontext` continue with the one they find,
and `makecontext` leaves it alone, as it is with points (`Lib.Contexts`).

# What a failing call leaves behind

Every call first looks at its arguments and at `initialized`; a call refused
there has written nothing. Behind these checks there are three exits:

- `thread_libinit` sets `initialized` before it asks for its stacks, and keeps
  it when there is none.
- `thread_create` counts the thread before it looks at its stack.
- `thread_join` blocks `SIGALRM` before it looks for the thread, and returns
  without unblocking it.
-/
import OperatingSystem.Thread.Alarm
import OperatingSystem.Thread.Lifecycle

namespace OperatingSystem.Thread

open Lib (Along Contexts Reach System)
open Alarm.Machine (Misfiled)

-- ============================================================ the process

/-- The library and the signal mask: whether `SIGALRM` is blocked, for the
code that runs and in each context object. -/
structure Process where
  lib : Library
  mask : Contexts Slot Bool

namespace Process

/-- `SIGALRM` is blocked. -/
def blocked (p : Process) : Bool := p.mask.pc

/-- `sigprocmask`, which the library calls under PRIORITY only. -/
def sigprocmask (blocked : Bool) (p : Process) : Process :=
  if p.lib.schedulePolicy = .priority then
    { p with mask := { p.mask with pc := blocked } }
  else p

def block (p : Process) : Process := p.sigprocmask true

def unblock (p : Process) : Process := p.sigprocmask false

/-- The end of `my_scheduler`: the processor goes to `current_active`, or to
main where it is NULL. -/
def switch (p : Process) (s : Library) : Process where
  lib := s
  mask := p.mask.swapcontext .scheduler (slot s.currentActive)

/-- `my_scheduler`. Where no queue is for the priority of the thread that
yields, it leaves for main without unblocking. -/
def myScheduler (b : Build) (o : Outside) (p : Process) : Option Process :=
  match nextThread b o p.lib with
  | none => none
  | some (none, s) =>
      let q := if Misfiled p.lib then p.block else p.block.unblock
      some (q.switch { s with currentActive := none })
  | some (some id, s) => (dispatch o id s).map p.block.unblock.switch

/-- Thread `tid` saves its context and enters `my_scheduler`. -/
def giveUp (b : Build) (o : Outside) (e : Event) (f : MyThread → MyThread)
    (tid : Int) (p : Process) : Option (Outcome × Process) :=
  match findByTid p.lib tid with
  | none => none
  | some cur =>
      (myScheduler b o ⟨(p.lib.onThread tid f).log e cur,
        p.mask.swapcontext (.thread tid) .scheduler⟩).map (.switched, ·)

/-- Main enters `my_scheduler` by `setcontext`. -/
def mainGivesUp (b : Build) (o : Outside) (p : Process) :
    Option (Outcome × Process) :=
  (myScheduler b o { p with mask := p.mask.setcontext .scheduler }).map
    (.switched, ·)

/-- `thread_libinit`, with its two `getcontext`s. -/
def threadLibinit (policy : Int) (schedulerStack mainStack : Bool)
    (p : Process) : Outcome × Process :=
  match policyOf policy with
  | none => (.returned EXIT_WITH_ERROR, p)
  | some policy' =>
      if p.lib.initialized then (.returned EXIT_WITH_ERROR, p)
      else
        let r := Thread.threadLibinit policy schedulerStack mainStack p.lib
        let p := { p with lib := r.2 }
        if schedulerStack = false then (r.1, p)
        else if policy' = .priority
            ∧ setitimer (QUANTA * MICRO_TO_MILI) < 0 then (r.1, p)
        else
          let p := { p with mask := p.mask.getcontext .scheduler }
          if mainStack = false then (r.1, p)
          else (r.1, { p with mask := p.mask.getcontext .main })

/-- `thread_libterminate`. -/
def threadLibterminate (p : Process) : Outcome × Process :=
  let r := Thread.threadLibterminate p.lib
  (r.1, { p with lib := r.2 })

/-- `thread_create`: the new thread starts with its creator's mask. -/
def threadCreate (func malloc : Bool) (priority : Int) (p : Process) :
    Outcome × Process :=
  match Thread.threadCreate func malloc priority p.lib with
  | (.returned tid, s) =>
      if tid = EXIT_WITH_ERROR then (.returned tid, { p with lib := s })
      else (.returned tid, ⟨s, p.mask.getcontext (.thread tid)⟩)
  | (.switched, s) => (.switched, { p with lib := s })

/-- `thread_yield`. -/
def threadYield (b : Build) (o : Outside) (p : Process) :
    Option (Outcome × Process) :=
  if p.lib.initialized = false then some (.returned EXIT_WITH_ERROR, p)
  else
    let p := p.block
    match p.lib.currentActive with
    | some tid =>
        p.unblock.giveUp b o .stopped (fun t => { t with status := .yield })
          tid
    | none => p.unblock.mainGivesUp b o

/-- `thread_join`. -/
def threadJoin (b : Build) (o : Outside) (tid : Int) (p : Process) :
    Option (Outcome × Process) :=
  if p.lib.initialized = false then some (.returned EXIT_WITH_ERROR, p)
  else
    let p := p.block
    match findByTid p.lib tid with
    | none => some (.returned EXIT_WITH_ERROR, p)
    | some _ =>
        match p.lib.currentActive with
        | some me =>
            p.unblock.giveUp b o .stopped
              (fun t => { t with status := .stopped, waitTid := tid }) me
        | none => p.unblock.mainGivesUp b o

/-- `thread_wrapper` after the thread's function has returned. -/
def threadReturn (b : Build) (o : Outside) (p : Process) :
    Option (Outcome × Process) :=
  match p.lib.currentActive with
  | some tid =>
      p.giveUp b o .finished (fun t => { t with status := .finished }) tid
  | none => none

/-- `sigalarm_handler`. The kernel blocks the signal while its handler
runs. -/
def sigalarmHandler (b : Build) (o : Outside) (p : Process) :
    Option (Outcome × Process) :=
  let p := { p with mask := { p.mask with pc := true } }
  match p.lib.currentActive with
  | some tid =>
      p.unblock.giveUp b o .stopped (fun t => { t with status := .yield }) tid
  | none => p.mainGivesUp b o

/-- One call. A blocked `SIGALRM` is not delivered. -/
def call (b : Build) (c : LifeCall) (p : Process) :
    Option (Outcome × Process) :=
  match c with
  | .libinit policy schedulerStack mainStack =>
      some (p.threadLibinit policy schedulerStack mainStack)
  | .libterminate => some p.threadLibterminate
  | .call (.create func malloc priority) =>
      some (p.threadCreate func malloc priority)
  | .call (.yield o) => p.threadYield b o
  | .call (.join tid o) => p.threadJoin b o tid
  | .call (.ret o) => p.threadReturn b o
  | .call (.alarm o) =>
      if p.lib.schedulePolicy = .priority ∧ p.blocked = false then
        p.sigalarmHandler b o
      else none

end Process

/-- All runs of a process, whatever mask it starts with. -/
def process (b : Build) : System Process LifeCall where
  start := fun p => p.lib = unused
  step := fun c p => (p.call b c).map Prod.snd

-- ========================================================= the statements

variable {b : Build} {o : Outside} {c : LifeCall} {p p' : Process}
  {out : Outcome} {tid : Int} {e : Event} {f : MyThread → MyThread}

/-- The call returns -1. -/
def Fails (b : Build) (c : LifeCall) (p : Process) : Prop :=
  (p.call b c).map Prod.fst = some (.returned EXIT_WITH_ERROR)

instance (b : Build) (c : LifeCall) (p : Process) : Decidable (Fails b c p) :=
  inferInstanceAs (Decidable (_ = _))

/-- The library's state is the same, and `SIGALRM` is blocked or not as
before. -/
structure Unchanged (p p' : Process) : Prop where
  initialized : p'.lib.initialized = p.lib.initialized
  count : p'.lib.threadCount = p.lib.threadCount
  list : p'.lib.threadListHead = p.lib.threadListHead
  current : p'.lib.currentActive = p.lib.currentActive
  fifo : p'.lib.readyFIFO = p.lib.readyFIFO
  sjf : p'.lib.readySJF = p.lib.readySJF
  first : p'.lib.readyQueueFirst = p.lib.readyQueueFirst
  second : p'.lib.readyQueueSecond = p.lib.readyQueueSecond
  third : p'.lib.readyQueueThird = p.lib.readyQueueThird
  blocked : p'.blocked = p.blocked

theorem Unchanged.refl (p : Process) : Unchanged p p :=
  ⟨rfl, rfl, rfl, rfl, rfl, rfl, rfl, rfl, rfl, rfl⟩

/-- If the call fails, the first checks refuse it, or all it does before it
fails is to block `SIGALRM`, which is blocked. -/
def Harmless (c : LifeCall) (p : Process) : Prop :=
  match c with
  | .libinit policy _ _ =>
      policyOf policy = none ∨ p.lib.initialized = true
  | .call (.create func _ n) =>
      ¬ValidPriority n ∨ func = false ∨ p.lib.initialized = false
  | .call (.join _ _) =>
      p.lib.initialized = false ∨ p.lib.schedulePolicy ≠ .priority
        ∨ p.blocked = true
  | _ => True

instance (c : LifeCall) (p : Process) : Decidable (Harmless c p) :=
  match c with
  | .libinit _ _ _ => inferInstanceAs (Decidable (_ ∨ _))
  | .libterminate => inferInstanceAs (Decidable True)
  | .call (.create _ _ _) => inferInstanceAs (Decidable (_ ∨ _))
  | .call (.join _ _) => inferInstanceAs (Decidable (_ ∨ _))
  | .call (.yield _) => inferInstanceAs (Decidable True)
  | .call (.ret _) => inferInstanceAs (Decidable True)
  | .call (.alarm _) => inferInstanceAs (Decidable True)

-- =========================================== the library beneath the mask

namespace Process

@[simp] theorem sigprocmask_lib (blocked : Bool) (p : Process) :
    (p.sigprocmask blocked).lib = p.lib := by
  unfold Process.sigprocmask
  split
  case isTrue => rfl
  case isFalse => rfl

@[simp] theorem block_lib (p : Process) : p.block.lib = p.lib :=
  sigprocmask_lib true p

@[simp] theorem unblock_lib (p : Process) : p.unblock.lib = p.lib :=
  sigprocmask_lib false p

theorem myScheduler_lib (b : Build) (o : Outside) (p : Process) :
    (p.myScheduler b o).map Process.lib = Thread.myScheduler b o p.lib := by
  unfold Process.myScheduler Thread.myScheduler
  cases nextThread b o p.lib with
  | none => rfl
  | some r =>
      obtain ⟨next, s⟩ := r
      cases next with
      | none => rfl
      | some id =>
          dsimp only
          rw [Option.map_map]
          exact Option.map_id' (x := dispatch o id s)

theorem giveUp_lib (h : p.giveUp b o e f tid = some (out, p')) :
    Thread.giveUp b o e f tid p.lib = some (out, p'.lib) := by
  unfold Process.giveUp at h
  unfold Thread.giveUp
  cases hfind : findByTid p.lib tid with
  | none =>
      rw [hfind] at h
      cases h
  | some cur =>
      rw [hfind] at h
      obtain ⟨q, hq, heq⟩ := Option.map_eq_some_iff.mp h
      obtain ⟨rfl, rfl⟩ := Prod.mk.inj heq
      dsimp only
      rw [← myScheduler_lib b o ⟨(p.lib.onThread tid f).log e cur,
        p.mask.swapcontext (.thread tid) .scheduler⟩, hq]
      rfl

theorem mainGivesUp_lib (h : p.mainGivesUp b o = some (out, p')) :
    Thread.mainGivesUp b o p.lib = some (out, p'.lib) := by
  obtain ⟨q, hq, heq⟩ := Option.map_eq_some_iff.mp h
  obtain ⟨rfl, rfl⟩ := Prod.mk.inj heq
  unfold Thread.mainGivesUp
  rw [← myScheduler_lib b o { p with
    mask := p.mask.setcontext .scheduler }, hq]
  rfl

theorem threadLibinit_lib (n : Int) (schedulerStack mainStack : Bool)
    (p : Process) :
    (p.threadLibinit n schedulerStack mainStack).map id Process.lib
      = Thread.threadLibinit n schedulerStack mainStack p.lib := by
  unfold Process.threadLibinit
  cases hn : policyOf n with
  | none =>
      unfold Thread.threadLibinit
      rw [hn]
      rfl
  | some policy =>
      dsimp only
      by_cases hup : p.lib.initialized = true
      · unfold Thread.threadLibinit
        rw [if_pos hup, hn]
        exact (if_pos hup).symm
      · rw [if_neg hup]
        split_ifs
        all_goals rfl

theorem threadCreate_lib (func malloc : Bool) (n : Int) (p : Process) :
    (p.threadCreate func malloc n).map id Process.lib
      = Thread.threadCreate func malloc n p.lib := by
  unfold Process.threadCreate
  cases Thread.threadCreate func malloc n p.lib with
  | mk out s =>
      cases out with
      | returned v =>
          dsimp only
          split_ifs
          all_goals rfl
      | switched => rfl

theorem threadYield_lib (h : p.threadYield b o = some (out, p')) :
    Thread.threadYield b o p.lib = some (out, p'.lib) := by
  unfold Process.threadYield at h
  unfold Thread.threadYield
  by_cases hdown : p.lib.initialized = false
  · rw [if_pos hdown] at h ⊢
    obtain ⟨rfl, rfl⟩ := Prod.mk.inj (Option.some.inj h)
    rfl
  · rw [if_neg hdown] at h ⊢
    dsimp only at h
    rw [block_lib] at h
    cases hcur : p.lib.currentActive with
    | some me =>
        rw [hcur] at h
        simpa only [unblock_lib, block_lib] using giveUp_lib h
    | none =>
        rw [hcur] at h
        simpa only [unblock_lib, block_lib] using mainGivesUp_lib h

theorem threadJoin_lib (h : p.threadJoin b o tid = some (out, p')) :
    Thread.threadJoin b o tid p.lib = some (out, p'.lib) := by
  unfold Process.threadJoin at h
  unfold Thread.threadJoin
  by_cases hdown : p.lib.initialized = false
  · rw [if_pos hdown] at h ⊢
    obtain ⟨rfl, rfl⟩ := Prod.mk.inj (Option.some.inj h)
    rfl
  · rw [if_neg hdown] at h ⊢
    dsimp only at h
    rw [block_lib] at h
    cases hfind : findByTid p.lib tid with
    | none =>
        rw [hfind] at h
        obtain ⟨rfl, rfl⟩ := Prod.mk.inj (Option.some.inj h)
        rw [block_lib]
    | some t =>
        rw [hfind] at h
        dsimp only at h ⊢
        cases hcur : p.lib.currentActive with
        | some me =>
            rw [hcur] at h
            simpa only [unblock_lib, block_lib] using giveUp_lib h
        | none =>
            rw [hcur] at h
            simpa only [unblock_lib, block_lib] using mainGivesUp_lib h

theorem threadReturn_lib (h : p.threadReturn b o = some (out, p')) :
    Thread.threadReturn b o p.lib = some (out, p'.lib) := by
  unfold Process.threadReturn at h
  unfold Thread.threadReturn
  cases hcur : p.lib.currentActive with
  | some me =>
      rw [hcur] at h
      exact giveUp_lib h
  | none =>
      rw [hcur] at h
      cases h

theorem sigalarmHandler_lib (h : p.sigalarmHandler b o = some (out, p')) :
    Thread.sigalarmHandler b o p.lib = some (out, p'.lib) := by
  unfold Process.sigalarmHandler at h
  unfold Thread.sigalarmHandler
  dsimp only at h
  cases hcur : p.lib.currentActive with
  | some me =>
      rw [hcur] at h
      simpa only [unblock_lib] using giveUp_lib h
  | none =>
      rw [hcur] at h
      exact mainGivesUp_lib h

/-- What a call of the process does to the library is what that call does to
the library alone. -/
theorem call_lifeCall (h : p.call b c = some (out, p')) :
    lifeCall b c p.lib = some (out, p'.lib) := by
  cases c with
  | libinit n schedulerStack mainStack =>
      have heq := Option.some.inj h
      show some (Thread.threadLibinit n schedulerStack mainStack p.lib) = _
      rw [← threadLibinit_lib, heq]
      rfl
  | libterminate =>
      obtain ⟨rfl, rfl⟩ := Prod.mk.inj (Option.some.inj h)
      rfl
  | call c =>
      cases c with
      | create func malloc n =>
          have heq := Option.some.inj h
          show some (Thread.threadCreate func malloc n p.lib) = _
          rw [← threadCreate_lib, heq]
          rfl
      | yield o => exact threadYield_lib h
      | join tid o => exact threadJoin_lib h
      | ret o => exact threadReturn_lib h
      | alarm o =>
          obtain ⟨hon, hrun⟩ := Option.ite_none_right_eq_some.mp h
          exact (if_pos hon.1).trans (sigalarmHandler_lib hrun)

/-- So every run of the process is one of the library. -/
theorem reach_lifecycle {ok : LifeCall → Library → Prop}
    (h : Reach (process b) (fun c p => ok c p.lib) p) :
    Reach (lifecycle b) ok p.lib := by
  refine h.invariant (I := fun p => Reach (lifecycle b) ok p.lib) ?_ ?_
  · rintro t (ht : t.lib = unused)
    rw [ht]
    exact ⟨unused, rfl, .refl _⟩
  · intro c t t' ht hok hst
    obtain ⟨⟨out, q⟩, hcall, rfl⟩ := Option.map_eq_some_iff.mp hst
    refine ht.step (a := c) hok ?_
    show (lifeCall b c t.lib).map Prod.snd = some q.lib
    rw [call_lifeCall hcall]
    rfl

-- ==================================================== one call that fails

/-- Who gives up the processor gets no value. -/
theorem giveUp_switched (h : p.giveUp b o e f tid = some (out, p')) :
    out = .switched := by
  unfold Process.giveUp at h
  split at h
  case h_1 => cases h
  case h_2 =>
    obtain ⟨q, -, heq⟩ := Option.map_eq_some_iff.mp h
    exact (Prod.mk.inj heq).1.symm

theorem mainGivesUp_switched (h : p.mainGivesUp b o = some (out, p')) :
    out = .switched := by
  obtain ⟨q, -, heq⟩ := Option.map_eq_some_iff.mp h
  exact (Prod.mk.inj heq).1.symm

theorem threadLibinit_refused {n : Int}
    (h : policyOf n = none ∨ p.lib.initialized = true)
    (schedulerStack mainStack : Bool) :
    p.threadLibinit n schedulerStack mainStack
      = (.returned EXIT_WITH_ERROR, p) := by
  unfold Process.threadLibinit
  split
  case h_1 => rfl
  case h_2 hn =>
    rcases h with hnone | hup
    · rw [hnone] at hn
      cases hn
    · exact if_pos hup

/-- Behind its checks `thread_libinit` has set `initialized`. -/
theorem threadLibinit_initialized {n : Int} {policy : Policy}
    (hn : policyOf n = some policy) (hdown : p.lib.initialized = false)
    (schedulerStack mainStack : Bool) :
    (p.threadLibinit n schedulerStack mainStack).2.lib.initialized = true := by
  show ((p.threadLibinit n schedulerStack mainStack).map id
    Process.lib).2.initialized = true
  rw [threadLibinit_lib]
  unfold Thread.threadLibinit
  rw [hn]
  dsimp only
  rw [if_neg (by rw [hdown]; decide)]
  split_ifs
  case pos => rfl
  all_goals exact freshQueues_initialized _

theorem threadCreate_refused {func : Bool} {n : Int}
    (h : ¬ValidPriority n ∨ func = false ∨ p.lib.initialized = false)
    (malloc : Bool) :
    p.threadCreate func malloc n = (.returned EXIT_WITH_ERROR, p) := by
  have hlib : Thread.threadCreate func malloc n p.lib
      = (.returned EXIT_WITH_ERROR, p.lib) := by
    unfold Thread.threadCreate
    split_ifs with hn hfunc hdown
    case pos => rfl
    case pos => rfl
    case pos => rfl
    all_goals
      exfalso
      unfold ValidPriority at h
      tauto
  unfold Process.threadCreate
  rw [hlib]
  rfl

/-- Behind its checks `thread_create` has counted the thread. -/
theorem threadCreate_count {func : Bool} {n : Int} (hn : ValidPriority n)
    (hfunc : func = true) (hup : p.lib.initialized = true) (malloc : Bool) :
    (p.threadCreate func malloc n).2.lib.threadCount
      = p.lib.threadCount + 1 := by
  show ((p.threadCreate func malloc n).map id Process.lib).2.threadCount = _
  rw [threadCreate_lib]
  unfold Thread.threadCreate
  rw [if_neg (by unfold ValidPriority at hn; tauto),
    if_neg (by rw [hfunc]; decide), if_neg (by rw [hup]; decide)]
  dsimp only
  split_ifs
  case pos => rfl
  all_goals
    dsimp only
    split
    all_goals rfl

theorem threadLibterminate_refused (hdown : p.lib.initialized = false) :
    p.threadLibterminate = (.returned EXIT_WITH_ERROR, p) := by
  unfold Process.threadLibterminate Thread.threadLibterminate
  rw [if_pos hdown]

/-- `thread_libterminate` fails before `thread_libinit` only. -/
theorem threadLibterminate_fails
    (h : p.threadLibterminate.1 = .returned EXIT_WITH_ERROR) :
    p.lib.initialized = false := by
  by_contra hup
  have hsuccess : p.threadLibterminate.1 = .returned EXIT_SUCCESS := by
    unfold Process.threadLibterminate Thread.threadLibterminate utilTerminate
    rw [if_neg hup, if_neg hup]
  rw [hsuccess] at h
  cases h

/-- `thread_yield` fails before `thread_libinit` only. -/
theorem threadYield_fails {v : Int}
    (h : p.threadYield b o = some (.returned v, p')) : p' = p := by
  unfold Process.threadYield at h
  split at h
  case isTrue => exact (Prod.mk.inj (Option.some.inj h)).2.symm
  case isFalse =>
    dsimp only at h
    split at h
    case h_1 => cases giveUp_switched h
    case h_2 => cases mainGivesUp_switched h

/-- Behind its check `thread_join` has blocked `SIGALRM`. -/
theorem threadJoin_fails {v : Int}
    (h : p.threadJoin b o tid = some (.returned v, p')) :
    p' = if p.lib.initialized = false then p else p.block := by
  unfold Process.threadJoin at h
  split at h
  case isTrue hdown =>
    rw [if_pos hdown]
    exact (Prod.mk.inj (Option.some.inj h)).2.symm
  case isFalse hup =>
    rw [if_neg hup]
    dsimp only at h
    split at h
    case h_1 => exact (Prod.mk.inj (Option.some.inj h)).2.symm
    case h_2 =>
      split at h
      case h_1 => cases giveUp_switched h
      case h_2 => cases mainGivesUp_switched h

theorem threadReturn_switched (h : p.threadReturn b o = some (out, p')) :
    out = .switched := by
  unfold Process.threadReturn at h
  split at h
  case h_1 => exact giveUp_switched h
  case h_2 => cases h

theorem sigalarmHandler_switched
    (h : p.sigalarmHandler b o = some (out, p')) : out = .switched := by
  unfold Process.sigalarmHandler at h
  dsimp only at h
  split at h
  case h_1 => exact giveUp_switched h
  case h_2 => exact mainGivesUp_switched h

/-- Blocking `SIGALRM` changes nothing where it is blocked, and nothing but
under PRIORITY. -/
theorem block_eq (h : p.lib.schedulePolicy ≠ .priority ∨ p.blocked = true) :
    p.block = p := by
  unfold Process.block Process.sigprocmask
  split
  case isTrue hp =>
    have hpc : p.mask.pc = true := h.resolve_left (absurd hp)
    rw [← hpc]
  case isFalse => rfl

theorem block_blocked (hp : p.lib.schedulePolicy = .priority) :
    p.block.blocked = true := by
  unfold Process.block Process.sigprocmask
  rw [if_pos hp]
  rfl

end Process

/-- One case per call: a harmless failure leaves the whole process as it is,
any other leaves something else. -/
theorem failed_call (h : p.call b c = some (.returned EXIT_WITH_ERROR, p')) :
    (Harmless c p → p' = p) ∧ (Unchanged p p' → Harmless c p) := by
  cases c with
  | libinit n schedulerStack mainStack =>
      have heq := Option.some.inj h
      refine ⟨fun hrefused => ?_, fun hsame => ?_⟩
      · rw [Process.threadLibinit_refused hrefused] at heq
        exact (Prod.mk.inj heq).2.symm
      · by_contra hnot
        obtain ⟨hn, hup⟩ := not_or.mp hnot
        obtain ⟨policy, hn⟩ := Option.ne_none_iff_exists'.mp hn
        have hdown : p.lib.initialized = false := Bool.eq_false_iff.mpr hup
        have hset :=
          Process.threadLibinit_initialized hn hdown schedulerStack mainStack
        rw [heq] at hset
        exact hup (hsame.initialized.symm.trans hset)
  | libterminate =>
      have heq := Option.some.inj h
      have hdown := Process.threadLibterminate_fails (congrArg Prod.fst heq)
      rw [Process.threadLibterminate_refused hdown] at heq
      exact ⟨fun _ => (Prod.mk.inj heq).2.symm, fun _ => trivial⟩
  | call c =>
      cases c with
      | create func malloc n =>
          have heq := Option.some.inj h
          refine ⟨fun hrefused => ?_, fun hsame => ?_⟩
          · rw [Process.threadCreate_refused hrefused] at heq
            exact (Prod.mk.inj heq).2.symm
          · by_contra hnot
            obtain ⟨hn, hnot⟩ := not_or.mp hnot
            obtain ⟨hfunc, hup⟩ := not_or.mp hnot
            have hcount := Process.threadCreate_count (not_not.mp hn)
              (Bool.not_eq_false _ ▸ hfunc) (Bool.not_eq_false _ ▸ hup)
              malloc
            rw [heq] at hcount
            have hkept : p.lib.threadCount + 1 = p.lib.threadCount :=
              hcount.symm.trans hsame.count
            omega
      | yield o =>
          exact ⟨fun _ => Process.threadYield_fails h, fun _ => trivial⟩
      | join tid o =>
          have heq := Process.threadJoin_fails h
          by_cases hdown : p.lib.initialized = false
          · rw [if_pos hdown] at heq
            exact ⟨fun _ => heq, fun _ => .inl hdown⟩
          · rw [if_neg hdown] at heq
            subst heq
            refine ⟨fun hok => Process.block_eq (hok.resolve_left hdown),
              fun hsame => .inr ?_⟩
            by_cases hp : p.lib.schedulePolicy = .priority
            · have hblocked := Process.block_blocked hp
              exact .inr (hsame.blocked.symm.trans hblocked)
            · exact .inl hp
      | ret o => cases Process.threadReturn_switched h
      | alarm o =>
          obtain ⟨-, hrun⟩ := Option.ite_none_right_eq_some.mp h
          cases Process.sigalarmHandler_switched hrun

-- ======================================================= the main theorem

theorem Fails.call_eq (h : Fails b c p) :
    ∃ p', p.call b c = some (.returned EXIT_WITH_ERROR, p') := by
  obtain ⟨⟨out, p'⟩, hcall, rfl⟩ := Option.map_eq_some_iff.mp h
  exact ⟨p', hcall⟩

/-- In every state, reachable or not, a call that returns -1 leaves the
library's state and the signal mask as they were exactly if it is harmless;
and a run whose failing calls are all harmless ends where it would have ended
without them. -/
theorem failing_calls_atomic_iff (b : Build) :
    (∀ p c p', p.call b c = some (.returned EXIT_WITH_ERROR, p') →
        (Unchanged p p' ↔ Harmless c p))
      ∧ ∀ calls p,
        Along (process b) (fun c p => Fails b c p → Harmless c p) calls p →
        Lib.run (process b) (Lib.without (process b) (Fails b) calls p) p
          = Lib.run (process b) calls p := by
  refine ⟨fun p c p' h => ⟨(failed_call h).2, fun hok => ?_⟩, ?_⟩
  · rw [(failed_call h).1 hok]
    exact .refl p
  · refine Lib.run_without fun c p p' hok hfails hst => ?_
    obtain ⟨q, hcall⟩ := hfails.call_eq
    have hq : q = p := (failed_call hcall).1 (hok hfails)
    have hst : (p.call b c).map Prod.snd = some p' := hst
    rw [hcall, hq] at hst
    exact (Option.some.inj hst).symm

/-- A program before its first call. -/
def launched : Process := ⟨unused, ⟨false, fun _ => false⟩⟩

/-- Under FIFO every call that is refused can be left out: one before
`thread_libinit`, a second `thread_libinit`, a NULL function, a join of
nobody; the join leaves the library as it is. -/
theorem failing_calls_atomic_misuse :
    Lib.run (process .plain) [.libinit 0 true true, .call (.create true true 0)]
        launched
      = Lib.run (process .plain)
          [.call (.create true true 0), .libinit 0 true true,
            .libinit 2 true true, .call (.create false true 0),
            .call (.create true true 0), .call (.join 7 zero)] launched
      ∧ ∃ p p', Lib.run (process .plain)
            [.libinit 0 true true, .call (.create true true 0)] launched
          = some p
        ∧ p.call .plain (.call (.join 7 zero))
          = some (.returned EXIT_WITH_ERROR, p')
        ∧ Unchanged p p' := by
  obtain ⟨hiff, hrun⟩ := failing_calls_atomic_iff .plain
  constructor
  · have hwithout : Lib.without (process .plain) (Fails .plain)
        [.call (.create true true 0), .libinit 0 true true,
          .libinit 2 true true, .call (.create false true 0),
          .call (.create true true 0), .call (.join 7 zero)] launched
        = [.libinit 0 true true, .call (.create true true 0)] := by
      decide +kernel
    rw [← hwithout]
    exact hrun _ launched (by decide +kernel)
  · refine ⟨_, _, rfl, rfl, (hiff _ (.call (.join 7 zero)) _ rfl).mpr ?_⟩
    exact .inr (.inl (by decide))

/-- Each of the three leaves something behind: `thread_libinit` without a
stack, `thread_create` without one, and under PRIORITY a join of nobody. -/
theorem failed_calls_leave_traces :
    (∃ p p', Reach (process .plain) Lib.Anything p
        ∧ p.call .plain (.libinit 0 false true)
          = some (.returned EXIT_WITH_ERROR, p')
        ∧ p.lib.initialized = false ∧ p'.lib.initialized = true
        ∧ ¬Unchanged p p')
      ∧ (∃ p p', Reach (process .plain) Lib.Anything p
        ∧ p.call .plain (.call (.create true false 0))
          = some (.returned EXIT_WITH_ERROR, p')
        ∧ p.lib.threadCount = 0 ∧ p'.lib.threadCount = 1
        ∧ ¬Unchanged p p')
      ∧ ∃ p p', Reach (process .plain) Lib.Anything p
        ∧ p.call .plain (.call (.join 7 zero))
          = some (.returned EXIT_WITH_ERROR, p')
        ∧ p.blocked = false ∧ p'.blocked = true ∧ ¬Unchanged p p' := by
  have hlaunched : Reach (process .plain) Lib.Anything launched :=
    ⟨launched, rfl, .refl _⟩
  have hup : Reach (process .plain) Lib.Anything
      (launched.threadLibinit 2 true true).2 :=
    hlaunched.step (a := .libinit 2 true true) trivial rfl
  refine ⟨⟨_, _, hlaunched, rfl, rfl, rfl, fun h => ?_⟩,
    ⟨_, _, hup, rfl, rfl, rfl, fun h => ?_⟩,
    ⟨_, _, hup, rfl, rfl, rfl, fun h => ?_⟩⟩
  · exact absurd h.initialized (by decide)
  · exact absurd h.count (by decide)
  · exact absurd h.blocked (by decide)

end OperatingSystem.Thread
