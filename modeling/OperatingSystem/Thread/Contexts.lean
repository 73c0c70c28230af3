/-
Where an execution continues when `my_scheduler` switches to it.

# The machine

The library's calls of `Thread.Basic`, with the four kinds of context
object they save and restore: `main_context`, `scheduler_context` and the
`context` of each thread. A point is as fine as a call: `inCall n` is
where the `n`-th call of the run returns to once it has given up the
processor. The handler of `SIGALRM` is installed by neither FIFO nor SJF
and is left out.

`left` is a history variable: which point each execution last gave up the
processor at. No step reads it.

# Main is never saved

`thread_yield` and `thread_join` save the context of a thread by
`swapcontext`, but leave main by `setcontext`: `main_context` keeps what
`thread_libinit` put there. So a thread always continues where it left,
and main never does. A run is as it should be exactly when `my_scheduler`
never leaves for main, which the state before each call decides
(`LeavesForMain`).
-/
import OperatingSystem.Lib.Contexts
import OperatingSystem.Thread.NoThreadLost

namespace OperatingSystem.Thread

open Lib (Along Contexts Takes)

-- ========================================================== the machine

/-- The context objects. -/
inductive Slot
  | main
  | scheduler
  | thread (tid : Int)
  deriving DecidableEq, Repr

/-- The program points the objects can hold: after `getcontext` in
`thread_libinit`, the entry of a new thread, inside a library call, the
entry of `my_scheduler` and after a `swapcontext` of it. -/
inductive Point
  | libinit
  | start (tid : Int)
  | inCall (n : Nat)
  | scheduler
  | switched
  deriving DecidableEq, Repr

/-- The library and the processor; `none` names main. -/
structure Machine where
  lib : Library
  cpu : Contexts Slot Point
  calls : Nat
  left : Option Int → Option Point

/-- The context object of an execution. -/
def slot : Option Int → Slot
  | none => .main
  | some tid => .thread tid

namespace Machine

/-- The end of `my_scheduler`: `scheduler_context` is made anew and the
processor goes to `current_active`, or to main where it is NULL. -/
def switch (m : Machine) (s : Library) : Machine :=
  { m with
    lib := s
    cpu := (({ m.cpu with pc := .switched } : Contexts Slot Point).makecontext
      .scheduler .scheduler).swapcontext .scheduler (slot s.currentActive) }

/-- `my_scheduler`, entered at its first line. -/
def myScheduler (b : Build) (o : Outside) (m : Machine) : Option Machine :=
  if m.cpu.pc = .scheduler then
    (Thread.myScheduler b o m.lib).map m.switch
  else none

/-- Thread `tid` saves its context and enters `my_scheduler`. -/
def giveUp (b : Build) (o : Outside) (e : Event) (f : MyThread → MyThread)
    (tid : Int) (m : Machine) : Option (Outcome × Machine) :=
  match findByTid m.lib tid with
  | none => none
  | some cur =>
      (myScheduler b o { m with
        lib := (m.lib.onThread tid f).log e cur
        cpu := (m.cpu.makecontext .scheduler .scheduler).swapcontext
          (.thread tid) .scheduler
        left := Function.update m.left (some tid) (some m.cpu.pc) }).map
          (.switched, ·)

/-- Main enters `my_scheduler` by `setcontext`. -/
def mainGivesUp (b : Build) (o : Outside) (m : Machine) :
    Option (Outcome × Machine) :=
  (myScheduler b o { m with
    cpu := (m.cpu.makecontext .scheduler .scheduler).setcontext .scheduler
    left := Function.update m.left none (some m.cpu.pc) }).map (.switched, ·)

/-- `thread_create`: the new thread starts in `thread_wrapper`. -/
def threadCreate (func malloc : Bool) (priority : Int) (m : Machine) :
    Outcome × Machine :=
  match Thread.threadCreate func malloc priority m.lib with
  | (.returned tid, s) =>
      if tid = EXIT_WITH_ERROR then (.returned tid, { m with lib := s })
      else (.returned tid, { m with
        lib := s
        cpu := m.cpu.makecontext (.thread tid) (.start tid) })
  | (.switched, s) => (.switched, { m with lib := s })

/-- `thread_yield`. -/
def threadYield (b : Build) (o : Outside) (m : Machine) :
    Option (Outcome × Machine) :=
  if m.lib.initialized = false then some (.returned EXIT_WITH_ERROR, m)
  else
    match m.lib.currentActive with
    | some tid =>
        giveUp b o .stopped (fun t => { t with status := .yield }) tid m
    | none => mainGivesUp b o m

/-- `thread_join`. -/
def threadJoin (b : Build) (o : Outside) (tid : Int) (m : Machine) :
    Option (Outcome × Machine) :=
  if m.lib.initialized = false then some (.returned EXIT_WITH_ERROR, m)
  else
    match findByTid m.lib tid with
    | none => some (.returned EXIT_WITH_ERROR, m)
    | some _ =>
        match m.lib.currentActive with
        | some me =>
            giveUp b o .stopped
              (fun t => { t with status := .stopped, waitTid := tid }) me m
        | none => mainGivesUp b o m

/-- `thread_wrapper` after the thread's function has returned. -/
def threadReturn (b : Build) (o : Outside) (m : Machine) :
    Option (Outcome × Machine) :=
  match m.lib.currentActive with
  | some tid =>
      giveUp b o .finished (fun t => { t with status := .finished }) tid m
  | none => none

/-- The running execution is inside its next library call. -/
def enter (m : Machine) : Machine :=
  { m with calls := m.calls + 1, cpu := { m.cpu with pc := .inCall m.calls } }

/-- One call under FIFO or SJF. -/
def call (b : Build) (c : Call) (m : Machine) : Option (Outcome × Machine) :=
  match c with
  | .create func malloc priority =>
      some (threadCreate func malloc priority m.enter)
  | .yield o => threadYield b o m.enter
  | .join tid o => threadJoin b o tid m.enter
  | .ret o => threadReturn b o m.enter
  | .alarm _ => none

/-- What `thread_libinit` leaves behind: `scheduler_context` is made,
`main_context` holds this very point, and `stale` is what every other
object holds before it is first written. -/
def libinit (policy : Policy) (stale : Slot → Point) : Machine where
  lib := Thread.libinit policy
  cpu := (Contexts.makecontext .scheduler .scheduler
    ⟨.libinit, stale⟩).getcontext .main
  calls := 0
  left := fun _ => none

end Machine

/-- The machine after a successful `thread_libinit(policy)`, driven by
calls in any order. -/
def machine (b : Build) (policy : Policy) : Lib.System Machine Call where
  start := fun m => ∃ stale, m = Machine.libinit policy stale
  step := fun c m => (m.call b c).map Prod.snd

-- ======================================================== the statements

variable {policy : Policy} {b : Build} {c : Call} {o : Outside}
  {s s₁ s' : Library} {m m' : Machine} {out : Outcome} {r : Option Int}

/-- The execution the processor is with continues where it last gave it
up, or at its entry if it never ran. -/
def ResumesWhereLeft (m : Machine) : Prop :=
  match m.left m.lib.currentActive with
  | some p => m.cpu.pc = p
  | none => ∃ tid ∈ m.lib.currentActive, m.cpu.pc = .start tid

instance : Decidable (ResumesWhereLeft m) :=
  match h : m.left m.lib.currentActive with
  | some p => decidable_of_iff (m.cpu.pc = p) <| by
      simp [ResumesWhereLeft, h]
  | none =>
      decidable_of_iff (∃ tid ∈ m.lib.currentActive, m.cpu.pc = .start tid) <|
        by simp [ResumesWhereLeft, h]

/-- If this call goes through `my_scheduler`, the execution switched to
continues where it left. -/
def SwitchesBack (b : Build) (c : Call) (m : Machine) : Prop :=
  ∀ m', m.call b c = some (.switched, m') → ResumesWhereLeft m'

instance : Decidable (SwitchesBack b c m) :=
  match h : m.call b c with
  | some (.switched, m') => decidable_of_iff (ResumesWhereLeft m') <| by
      simp [SwitchesBack, h]
  | some (.returned _, _) => isTrue <| by simp [SwitchesBack, h]
  | none => isTrue <| by simp [SwitchesBack, h]

/-- `my_scheduler` finds nothing to run: nobody is ready besides the
caller's own reasons. A yielding thread is ready itself, except under
SJF, and a returning one makes its waiters ready. -/
def LeavesForMain (c : Call) (s : Library) : Prop :=
  match c with
  | .yield _ =>
      readyIds s = [] ∧ (s.currentActive = none ∨ s.schedulePolicy = .sjf)
  | .join tid _ => readyIds s = [] ∧ tid ∈ tids s
  | .ret _ =>
      readyIds s = [] ∧ ∃ me ∈ s.currentActive, suspendedOf s me = []
  | _ => False

instance : Decidable (LeavesForMain c s) :=
  match c with
  | .yield _ => inferInstanceAs (Decidable (_ ∧ _))
  | .join _ _ => inferInstanceAs (Decidable (_ ∧ _))
  | .ret _ => inferInstanceAs (Decidable (_ ∧ _))
  | .create _ _ _ => inferInstanceAs (Decidable False)
  | .alarm _ => inferInstanceAs (Decidable False)

-- ============================================== when main is switched to

/-- `my_scheduler` runs the thread it has chosen. -/
theorem myScheduler_currentActive (hnext : nextThread b o s = some (r, s₁))
    (h : myScheduler b o s = some s') : s'.currentActive = r := by
  unfold myScheduler at h
  rw [hnext] at h
  cases r with
  | none =>
      obtain rfl := Option.some.inj h
      rfl
  | some id =>
      dsimp only at h
      unfold dispatch at h
      split at h
      case h_1 => cases h
      case h_2 =>
        dsimp only at h
        -- the quantum is in the timer's range
        rw [if_neg (by rintro ⟨-, h⟩; exact absurd h (by decide))] at h
        obtain rfl := Option.some.inj h
        rfl

/-- A call that entered `my_scheduler` ends with the choice. -/
theorem switched_currentActive (hnext : nextThread b o s₁ = some (r, s))
    (h : (myScheduler b o s₁).map (Outcome.switched, ·) = some (out, s')) :
    s'.currentActive = r := by
  obtain ⟨s₂, hs₂, heq⟩ := Option.map_eq_some_iff.mp h
  obtain ⟨-, rfl⟩ := Prod.mk.inj heq
  exact myScheduler_currentActive hnext hs₂

/-- Main gives up the processor and gets it back at once exactly when
nobody is ready. -/
theorem main_idle_iff (h : Placed policy s) (hcur : s.currentActive = none)
    (hcall : mainGivesUp b o s = some (out, s')) :
    s'.currentActive = none ↔ readyIds s = [] := by
  obtain ⟨r, s₁, hnext, htake, -⟩ := main_choice h.wf h.inv hcur b o
  rw [switched_currentActive hnext hcall, htake.none_iff]
  exact Multiset.coe_eq_zero _

/-- The state before a call decides whether it leaves for main. -/
theorem idle_iff (h : Placed policy s) (hpol : policy ≠ .priority)
    (hcall : call b c s = some (.switched, s')) :
    s'.currentActive = none ↔ LeavesForMain c s := by
  have hinit : ¬s.initialized = false := by rw [h.wf.initialized]; decide
  cases c with
  | create func malloc n =>
      obtain ⟨v, s₁, hcreate, -⟩ := threadCreate_move h.wf h.inv func malloc n
      rw [call, hcreate] at hcall
      cases hcall
  | yield o =>
      rw [call, threadYield, if_neg hinit] at hcall
      show _ ↔ readyIds s = [] ∧ (_ ∨ _)
      cases hcur : s.currentActive with
      | none =>
          rw [hcur] at hcall
          rw [main_idle_iff h hcur hcall]
          simp
      | some me =>
          rw [hcur] at hcall
          obtain ⟨cur, r, s₁, hfind, hnext, -, -, htake⟩ :=
            yield_choice h.wf h.inv hcur b o
          dsimp only at hcall
          rw [giveUp_eq hfind] at hcall
          rw [switched_currentActive hnext hcall, h.wf.policy_eq]
          rcases htake with ⟨htake, hne⟩ | ⟨hsjf, rfl, hready, -⟩
          · refine iff_of_false ?_ ?_
            · rw [htake.none_iff]
              exact Multiset.cons_ne_zero
            · rintro ⟨hready, hmain | hsjf⟩
              · cases hmain
              · exact hne hsjf hready
          · exact iff_of_true rfl ⟨hready, .inr hsjf⟩
  | join tid o =>
      rw [call, threadJoin, if_neg hinit] at hcall
      show _ ↔ readyIds s = [] ∧ _
      cases hfind : findByTid s tid with
      | none =>
          rw [hfind] at hcall
          cases hcall
      | some t =>
          rw [hfind] at hcall
          have htid := mem_tids_of_findByTid hfind
          rw [and_iff_left htid]
          cases hcur : s.currentActive with
          | none =>
              rw [hcur] at hcall
              exact main_idle_iff h hcur hcall
          | some me =>
              rw [hcur] at hcall
              obtain ⟨cur, r, s₁, hme, hnext, -, hcase⟩ :=
                join_choice h.wf h.inv hcur htid b o
              dsimp only at hcall
              rw [giveUp_eq hme] at hcall
              rw [switched_currentActive hnext hcall]
              rcases hcase with ⟨rfl, hready, -⟩ | ⟨n, rfl, hready, -⟩
              · exact iff_of_true rfl hready
              · refine iff_of_false (Option.some_ne_none _) fun hnil => ?_
                rw [hnil] at hready
                exact Multiset.cons_ne_zero hready.symm
  | ret o =>
      rw [call, threadReturn] at hcall
      show _ ↔ readyIds s = [] ∧ ∃ _, _
      cases hcur : s.currentActive with
      | none =>
          rw [hcur] at hcall
          cases hcall
      | some me =>
          rw [hcur] at hcall
          obtain ⟨cur, r, s₁, hfind, hnext, -, htake, -⟩ :=
            finish_choice h.wf h.inv hcur b o
          dsimp only at hcall
          rw [giveUp_eq hfind] at hcall
          rw [switched_currentActive hnext hcall, htake.none_iff,
            add_eq_zero, view_ready_eq_zero]
          refine and_congr_right fun _ => ?_
          rw [show (view s).waiters me = (suspendedOf s me : Multiset Int)
            from rfl, Multiset.coe_eq_zero]
          simp
  | alarm o =>
      refine absurd ?_ hpol
      rw [← h.wf.policy_eq]
      exact enabled_of_call hcall

/-- A call that leaves for main goes through `my_scheduler`. -/
theorem switched_of_leaves (h : Placed policy s) (b : Build)
    (hleaves : LeavesForMain c s) :
    ∃ s', call b c s = some (.switched, s') := by
  have hinit : ¬s.initialized = false := by rw [h.wf.initialized]; decide
  cases c with
  | yield o =>
      rw [call, threadYield, if_neg hinit]
      cases hcur : s.currentActive with
      | none =>
          obtain ⟨s', w, hs, -⟩ :=
            mainGivesUp_move (b := b) (o := o) h.wf h.inv hcur
          exact ⟨s', hs⟩
      | some me =>
          obtain ⟨s', w, hs, -⟩ :=
            giveUp_yield (b := b) (o := o) h.wf h.inv hcur
          exact ⟨s', hs⟩
  | join tid o =>
      obtain ⟨-, htid⟩ := hleaves
      obtain ⟨t, hfind⟩ := findByTid_of_mem_tids htid
      rw [call, threadJoin, if_neg hinit, hfind]
      cases hcur : s.currentActive with
      | none =>
          obtain ⟨s', w, hs, -⟩ :=
            mainGivesUp_move (b := b) (o := o) h.wf h.inv hcur
          exact ⟨s', hs⟩
      | some me =>
          obtain ⟨s', w, hs, -⟩ :=
            giveUp_join (b := b) (o := o) h.wf h.inv hcur htid
          exact ⟨s', hs⟩
  | ret o =>
      obtain ⟨-, me, hcur, -⟩ := hleaves
      obtain ⟨s', w, hs, -⟩ :=
        giveUp_finished (b := b) (o := o) h.wf h.inv hcur
      rw [call, threadReturn, hcur]
      exact ⟨s', hs⟩
  | create func malloc n => cases hleaves
  | alarm o => cases hleaves

-- =================================================== what a call saves

theorem slot_ne_scheduler (e : Option Int) : slot e ≠ .scheduler := by
  cases e <;> nofun

@[simp] theorem slot_inj {d e : Option Int} : slot d = slot e ↔ d = e := by
  cases d <;> cases e <;> simp [slot]

/-- Execution `e` left at the point `m` is at, and the processor went to
`current_active`. Only a thread's context is saved. -/
structure HandedOver (e : Option Int) (m m' : Machine) : Prop where
  left : m'.left = Function.update m.left e (some m.cpu.pc)
  saved : ∀ d, m'.cpu.saved (slot d)
    = if d = e ∧ e ≠ none then m.cpu.pc else m.cpu.saved (slot d)
  pc : m'.cpu.pc = m'.cpu.saved (slot m'.lib.currentActive)

/-- `thread_create` returns: an error, or a thread nobody had before. -/
theorem threadCreate_tids (hwf : Wf policy s) (func malloc : Bool) (n : Int) :
    ∃ v s', threadCreate func malloc n s = (.returned v, s')
      ∧ s'.currentActive = s.currentActive
      ∧ (v = EXIT_WITH_ERROR ∧ tids s' = tids s
        ∨ v ≠ EXIT_WITH_ERROR ∧ v ∉ tids s ∧ tids s' = tids s ++ [v]) := by
  have hfresh : s.threadCount + 1 ∉ tids s := fun h => by
    have := hwf.range _ h
    omega
  have hne : s.threadCount + 1 ≠ EXIT_WITH_ERROR := by
    have := hwf.count
    unfold EXIT_WITH_ERROR
    omega
  unfold threadCreate
  split
  case isTrue => exact ⟨_, _, rfl, rfl, .inl ⟨rfl, rfl⟩⟩
  case isFalse =>
  split
  case isTrue => exact ⟨_, _, rfl, rfl, .inl ⟨rfl, rfl⟩⟩
  case isFalse =>
  split
  case isTrue => exact ⟨_, _, rfl, rfl, .inl ⟨rfl, rfl⟩⟩
  case isFalse =>
  split
  case isTrue => exact ⟨_, _, rfl, rfl, .inl ⟨rfl, rfl⟩⟩
  case isFalse =>
  have hnew (s' : Library) (t : MyThread) (ht : t.tid = s.threadCount + 1)
      (h : s'.threadListHead = s.threadListHead ++ [t]) :
      tids s' = tids s ++ [s.threadCount + 1] := by
    unfold tids
    rw [h, List.map_append, List.map_singleton, ht]
  -- whichever queue the thread goes into, its record is the last one
  refine ⟨_, _, rfl, ?_⟩
  dsimp only
  cases s.schedulePolicy with
  | fifo => exact ⟨rfl, .inr ⟨hne, hfresh, hnew _ _ rfl rfl⟩⟩
  | sjf => exact ⟨rfl, .inr ⟨hne, hfresh, hnew _ _ rfl rfl⟩⟩
  | priority =>
      dsimp only
      split
      case isTrue => exact ⟨rfl, .inr ⟨hne, hfresh, hnew _ _ rfl rfl⟩⟩
      case isFalse =>
      split
      case isTrue => exact ⟨rfl, .inr ⟨hne, hfresh, hnew _ _ rfl rfl⟩⟩
      case isFalse => exact ⟨rfl, .inr ⟨hne, hfresh, hnew _ _ rfl rfl⟩⟩

namespace Machine

@[simp] theorem switch_pc :
    (m.switch s).cpu.pc = m.cpu.saved (slot s.currentActive) := by
  unfold switch
  dsimp only
  rw [Contexts.swapcontext_pc (slot_ne_scheduler _),
    Contexts.makecontext_saved, if_neg (slot_ne_scheduler _)]

@[simp] theorem switch_saved (d : Option Int) :
    (m.switch s).cpu.saved (slot d) = m.cpu.saved (slot d) := by
  unfold switch
  dsimp only
  rw [Contexts.swapcontext_saved, if_neg (slot_ne_scheduler d),
    Contexts.makecontext_saved, if_neg (slot_ne_scheduler d)]

/-- Entered through a freshly made `scheduler_context`, `my_scheduler`
starts at its first line. -/
theorem myScheduler_entered (h : m.cpu.pc = .scheduler) :
    myScheduler b o m = (Thread.myScheduler b o m.lib).map m.switch := by
  unfold myScheduler
  rw [if_pos h]

variable {e : Event} {f : MyThread → MyThread} {tid : Int}

theorem giveUp_eq {cur : MyThread} (hfind : findByTid m.lib tid = some cur) :
    m.giveUp b o e f tid
      = (Thread.myScheduler b o ((m.lib.onThread tid f).log e cur)).map
        fun s => (.switched, switch { m with
          cpu := (m.cpu.makecontext .scheduler .scheduler).swapcontext
            (.thread tid) .scheduler
          left := Function.update m.left (some tid) (some m.cpu.pc) } s) := by
  unfold giveUp
  rw [hfind]
  dsimp only
  rw [myScheduler_entered ?pc]
  case pc =>
    dsimp only
    have hne : Slot.scheduler ≠ Slot.thread tid := nofun
    rw [Contexts.swapcontext_pc hne, Contexts.makecontext_saved, if_pos rfl]
  rw [Option.map_map]
  rfl

theorem mainGivesUp_eq :
    m.mainGivesUp b o
      = (Thread.myScheduler b o m.lib).map fun s => (.switched, switch { m with
          cpu := (m.cpu.makecontext .scheduler .scheduler).setcontext .scheduler
          left := Function.update m.left none (some m.cpu.pc) } s) := by
  unfold mainGivesUp
  rw [myScheduler_entered ?pc]
  case pc =>
    show (m.cpu.makecontext .scheduler .scheduler).saved .scheduler = _
    rw [Contexts.makecontext_saved, if_pos rfl]
  rw [Option.map_map]
  rfl

/-- A thread that gives up the processor. -/
theorem giveUp_handedOver (h : m.giveUp b o e f tid = some (out, m')) :
    out = .switched ∧ HandedOver (some tid) m m' := by
  cases hfind : findByTid m.lib tid with
  | none =>
      unfold giveUp at h
      rw [hfind] at h
      cases h
  | some cur =>
      rw [giveUp_eq hfind] at h
      obtain ⟨s, -, heq⟩ := Option.map_eq_some_iff.mp h
      obtain ⟨rfl, rfl⟩ := Prod.mk.inj heq
      refine ⟨rfl, rfl, fun d => ?_, by rw [switch_pc, switch_saved]; rfl⟩
      rw [switch_saved, Contexts.swapcontext_saved, Contexts.makecontext_saved,
        if_neg (slot_ne_scheduler d)]
      simp only [show Slot.thread tid = slot (some tid) from rfl, slot_inj,
        ne_eq, reduceCtorEq, not_false_eq_true, and_true,
        Contexts.makecontext_pc]

/-- Main gives up the processor. -/
theorem mainGivesUp_handedOver (h : m.mainGivesUp b o = some (out, m')) :
    out = .switched ∧ HandedOver none m m' := by
  rw [mainGivesUp_eq] at h
  obtain ⟨s, -, heq⟩ := Option.map_eq_some_iff.mp h
  obtain ⟨rfl, rfl⟩ := Prod.mk.inj heq
  refine ⟨rfl, rfl, fun d => ?_, by rw [switch_pc, switch_saved]; rfl⟩
  rw [switch_saved, if_neg (by simp)]
  show (m.cpu.makecontext _ _).saved _ = _
  rw [Contexts.makecontext_saved, if_neg (slot_ne_scheduler d)]

/-- Seen from the library, giving up the processor is the call of
`Thread.Basic`. -/
theorem giveUp_lib :
    (m.giveUp b o e f tid).map (fun r => (r.1, r.2.lib))
      = Thread.giveUp b o e f tid m.lib := by
  cases hfind : findByTid m.lib tid with
  | none =>
      unfold giveUp Thread.giveUp
      rw [hfind]
      rfl
  | some cur =>
      rw [giveUp_eq hfind, Thread.giveUp_eq hfind, Option.map_map]
      rfl

theorem mainGivesUp_lib :
    (m.mainGivesUp b o).map (fun r => (r.1, r.2.lib))
      = Thread.mainGivesUp b o m.lib := by
  rw [mainGivesUp_eq, Option.map_map]
  rfl

@[simp] theorem enter_lib : m.enter.lib = m.lib := rfl

@[simp] theorem enter_pc : m.enter.cpu.pc = .inCall m.calls := rfl

@[simp] theorem enter_saved : m.enter.cpu.saved = m.cpu.saved := rfl

@[simp] theorem enter_left : m.enter.left = m.left := rfl

theorem threadCreate_lib {func malloc : Bool} {n : Int} :
    Prod.map id lib (m.threadCreate func malloc n)
      = Thread.threadCreate func malloc n m.lib := by
  unfold threadCreate
  split
  case h_1 tid s h =>
    rw [h]
    split <;> rfl
  case h_2 s h =>
    rw [h]
    rfl

theorem threadYield_lib :
    (m.threadYield b o).map (fun r => (r.1, r.2.lib))
      = Thread.threadYield b o m.lib := by
  unfold threadYield Thread.threadYield
  split
  case isTrue => rfl
  case isFalse =>
  cases m.lib.currentActive with
  | some me => exact giveUp_lib
  | none => exact mainGivesUp_lib

theorem threadJoin_lib :
    (m.threadJoin b o tid).map (fun r => (r.1, r.2.lib))
      = Thread.threadJoin b o tid m.lib := by
  unfold threadJoin Thread.threadJoin
  split
  case isTrue => rfl
  case isFalse =>
  cases findByTid m.lib tid with
  | none => rfl
  | some t =>
      cases m.lib.currentActive with
      | some me => exact giveUp_lib
      | none => exact mainGivesUp_lib

theorem threadReturn_lib :
    (m.threadReturn b o).map (fun r => (r.1, r.2.lib))
      = Thread.threadReturn b o m.lib := by
  unfold threadReturn Thread.threadReturn
  cases m.lib.currentActive with
  | some me => exact giveUp_lib
  | none => rfl

/-- The machine's calls are the library's calls. -/
theorem call_lib (hpol : m.lib.schedulePolicy ≠ .priority) :
    (m.call b c).map (fun r => (r.1, r.2.lib)) = Thread.call b c m.lib := by
  cases c with
  | create func malloc n => exact congrArg some threadCreate_lib
  | yield o => exact threadYield_lib (m := m.enter)
  | join tid o => exact threadJoin_lib (m := m.enter)
  | ret o => exact threadReturn_lib (m := m.enter)
  | alarm o =>
      show none = _
      rw [Thread.call, if_neg hpol]

theorem call_some_lib (hpol : m.lib.schedulePolicy ≠ .priority)
    (h : m.call b c = some (out, m')) :
    Thread.call b c m.lib = some (out, m'.lib) := by
  rw [← call_lib hpol, h]
  rfl

/-- `thread_create` returns, with a new thread that starts at its entry
or without one. -/
theorem threadCreate_spec {func malloc : Bool} {n : Int}
    (hwf : Wf policy m.lib)
    (h : m.threadCreate func malloc n = (out, m')) :
    out ≠ .switched ∧ m'.left = m.left
      ∧ m'.lib.currentActive = m.lib.currentActive
      ∧ (tids m'.lib = tids m.lib ∧ m'.cpu.saved = m.cpu.saved
        ∨ ∃ v, v ∉ tids m.lib ∧ tids m'.lib = tids m.lib ++ [v]
          ∧ m'.cpu.saved = (m.cpu.makecontext (.thread v) (.start v)).saved) := by
  obtain ⟨v, s, hcreate, hcur, hcase⟩ :=
    threadCreate_tids hwf func malloc n
  unfold threadCreate at h
  rw [hcreate] at h
  dsimp only at h
  rcases hcase with ⟨rfl, htids⟩ | ⟨hv, hnew, htids⟩
  · rw [if_pos rfl] at h
    obtain ⟨rfl, rfl⟩ := Prod.mk.inj h
    exact ⟨nofun, rfl, hcur, .inl ⟨htids, rfl⟩⟩
  · rw [if_neg hv] at h
    obtain ⟨rfl, rfl⟩ := Prod.mk.inj h
    exact ⟨nofun, rfl, hcur, .inr ⟨v, hnew, htids, rfl⟩⟩

/-- Who hands over: the execution `current_active` names. -/
theorem handedOver_of_current {g : Int → Option (Outcome × Machine)}
    {r : Option (Outcome × Machine)} {e : Option Int}
    (h : (match e with
      | some tid => g tid
      | none => r) = some (out, m'))
    (hthread : ∀ tid, g tid = some (out, m') →
      out = .switched ∧ HandedOver (some tid) m m')
    (hmain : r = some (out, m') → out = .switched ∧ HandedOver none m m') :
    out = .switched ∧ HandedOver e m m' := by
  cases e with
  | none => exact hmain h
  | some tid => exact hthread tid h

/-- What a call does to the contexts: a switch hands over from the
execution that made it, everything else saves nothing but the entry of a
new thread. -/
theorem call_spec (hwf : Wf policy m.lib)
    (h : m.call b c = some (out, m')) :
    out = .switched ∧ HandedOver m.lib.currentActive m.enter m'
      ∨ out ≠ .switched ∧ m'.left = m.left
        ∧ m'.lib.currentActive = m.lib.currentActive
        ∧ (tids m'.lib = tids m.lib ∧ m'.cpu.saved = m.cpu.saved
          ∨ ∃ v, v ∉ tids m.lib ∧ tids m'.lib = tids m.lib ++ [v]
            ∧ m'.cpu.saved
              = (m.cpu.makecontext (.thread v) (.start v)).saved) := by
  have hinit : ¬m.enter.lib.initialized = false := by
    rw [enter_lib, hwf.initialized]
    decide
  cases c with
  | create func malloc n =>
      exact .inr (threadCreate_spec (m := m.enter) hwf (Option.some.inj h))
  | yield o =>
      rw [call, threadYield, if_neg hinit] at h
      exact .inl (handedOver_of_current h (fun _ => giveUp_handedOver)
        mainGivesUp_handedOver)
  | join tid o =>
      rw [call, threadJoin, if_neg hinit] at h
      split at h
      case h_1 =>
        obtain ⟨rfl, rfl⟩ := Prod.mk.inj (Option.some.inj h)
        exact .inr ⟨nofun, rfl, rfl, .inl ⟨rfl, rfl⟩⟩
      case h_2 =>
        exact .inl (handedOver_of_current h (fun _ => giveUp_handedOver)
          mainGivesUp_handedOver)
  | ret o =>
      exact .inl (handedOver_of_current h (fun _ => giveUp_handedOver) nofun)
  | alarm o => cases h

end Machine

-- ========================================================= the discipline

/-- What holds of the contexts after every call. `away` is main's side:
while a thread runs, main has given up the processor inside some call. -/
structure Settled (policy : Policy) (m : Machine) : Prop where
  placed : Placed policy m.lib
  main : m.cpu.saved .main = .libinit
  away : m.lib.currentActive ≠ none → ∃ n, m.left none = some (.inCall n)
  own : ∀ tid ∈ tids m.lib, m.lib.currentActive ≠ some tid →
    m.cpu.saved (.thread tid) = (m.left (some tid)).getD (.start tid)
  fresh : ∀ tid, tid ∉ tids m.lib → m.left (some tid) = none

/-- A new thread has its entry in its context; a call that only returns
changes nothing else. -/
theorem Settled.returned (h : Settled policy m) (hplaced : Placed policy m'.lib)
    (hleft : m'.left = m.left)
    (hcur : m'.lib.currentActive = m.lib.currentActive)
    (hcase : tids m'.lib = tids m.lib ∧ m'.cpu.saved = m.cpu.saved
      ∨ ∃ v, v ∉ tids m.lib ∧ tids m'.lib = tids m.lib ++ [v]
        ∧ m'.cpu.saved
          = (m.cpu.makecontext (.thread v) (.start v)).saved) :
    Settled policy m' := by
  rcases hcase with ⟨htids, hsaved⟩ | ⟨v, hv, htids, hsaved⟩
  · refine ⟨hplaced, ?_, ?_, ?_, ?_⟩
    · rw [hsaved]
      exact h.main
    · rw [hcur, hleft]
      exact h.away
    · rw [htids, hcur, hsaved, hleft]
      exact h.own
    · rw [htids, hleft]
      exact h.fresh
  · refine ⟨hplaced, ?_, ?_, fun tid htid hne => ?_, fun tid htid => ?_⟩
    · rw [hsaved, Contexts.makecontext_saved, if_neg nofun]
      exact h.main
    · rw [hcur, hleft]
      exact h.away
    · rw [hsaved, Contexts.makecontext_saved, hleft]
      split
      case isTrue heq =>
        obtain rfl := Slot.thread.inj heq
        rw [h.fresh tid hv]
        rfl
      case isFalse heq =>
        rw [htids, List.mem_append, List.mem_singleton] at htid
        rcases htid with htid | rfl
        · exact h.own tid htid (hcur ▸ hne)
        · exact absurd rfl heq
    · rw [hleft]
      refine h.fresh tid fun hmem => htid ?_
      rw [htids]
      exact List.mem_append_left _ hmem

/-- Whoever hands over, its own context is the only one that changes, and
it holds the point the execution left at. -/
theorem Settled.switched (h : Settled policy m) (hplaced : Placed policy m'.lib)
    (htids : tids m'.lib = tids m.lib)
    (hover : HandedOver m.lib.currentActive m.enter m') :
    Settled policy m' := by
  have hsaved (d : Option Int) : m'.cpu.saved (slot d)
      = if d = m.lib.currentActive ∧ m.lib.currentActive ≠ none
        then .inCall m.calls else m.cpu.saved (slot d) := hover.saved d
  have hleft : m'.left = Function.update m.left m.lib.currentActive
      (some (.inCall m.calls)) := hover.left
  refine ⟨hplaced, ?_, fun _ => ?_, fun tid htid hne => ?_, fun tid htid => ?_⟩
  · -- main's context is never the one that is saved
    rw [show Slot.main = slot none from rfl, hsaved,
      if_neg (by rintro ⟨he, hne⟩; exact hne he.symm)]
    exact h.main
  · rw [hleft, Function.update_apply]
    split
    case isTrue => exact ⟨_, rfl⟩
    case isFalse hcur => exact h.away fun hnone => hcur hnone.symm
  · rw [show Slot.thread tid = slot (some tid) from rfl, hsaved, hleft,
      Function.update_apply]
    by_cases hcur : some tid = m.lib.currentActive
    · rw [if_pos ⟨hcur, hcur ▸ nofun⟩, if_pos hcur]
      rfl
    · rw [if_neg fun hand => hcur hand.1, if_neg hcur]
      exact h.own tid (htids ▸ htid) fun he => hcur he.symm
  · rw [hleft, Function.update_of_ne]
    · exact h.fresh tid (htids ▸ htid)
    · -- the running thread has a record
      intro hcur
      refine htid (htids ▸ List.mem_toFinset.mp ?_)
      exact h.placed.inv.known tid (Lib.Pool.places_of_running hcur.symm)

/-- What a switched call does to a settled machine. -/
theorem Settled.handsOver (h : Settled policy m) (hpol : policy ≠ .priority)
    (hcall : m.call b c = some (.switched, m')) :
    Placed policy m'.lib ∧ tids m'.lib = tids m.lib
      ∧ HandedOver m.lib.currentActive m.enter m' := by
  have hlib := Machine.call_some_lib
    (by rw [h.placed.wf.policy_eq]; exact hpol) hcall
  obtain ⟨_, _, hcall', -, htids, -⟩ :=
    call_refines h.placed.wf h.placed.inv b (enabled_of_call hlib)
  rw [hlib] at hcall'
  obtain ⟨rfl, rfl⟩ := Prod.mk.inj (Option.some.inj hcall')
  rcases Machine.call_spec h.placed.wf hcall with ⟨-, hover⟩ | ⟨hne, -⟩
  · exact ⟨(h.placed.step (congrArg (Option.map Prod.snd) hlib)).1,
      htids rfl, hover⟩
  · exact absurd rfl hne

/-- One call keeps the contexts settled. -/
theorem Settled.call (h : Settled policy m) (hpol : policy ≠ .priority)
    (hcall : m.call b c = some (out, m')) : Settled policy m' := by
  rcases Machine.call_spec h.placed.wf hcall with
    ⟨rfl, -⟩ | ⟨-, hleft, hcur, hcase⟩
  · obtain ⟨hplaced, htids, hover⟩ := h.handsOver hpol hcall
    exact h.switched hplaced htids hover
  · have hlib := Machine.call_some_lib
      (by rw [h.placed.wf.policy_eq]; exact hpol) hcall
    obtain ⟨hplaced, -⟩ :=
      h.placed.step (b := b) (congrArg (Option.map Prod.snd) hlib)
    exact h.returned hplaced hleft hcur hcase

/-- A thread switched to continues where it left; main does not. -/
theorem Settled.resumes_iff (h : Settled policy m) (hpol : policy ≠ .priority)
    (hcall : m.call b c = some (.switched, m')) :
    ResumesWhereLeft m' ↔ m'.lib.currentActive ≠ none := by
  obtain ⟨hplaced, htids, hover⟩ := h.handsOver hpol hcall
  have h' := h.switched hplaced htids hover
  have hpc := hover.pc
  unfold ResumesWhereLeft
  cases hcur : m'.lib.currentActive with
  | none =>
      rw [hcur, show slot none = .main from rfl, h'.main] at hpc
      -- somebody handed over: main itself, or a thread while main was away
      have hmain : ∃ n, m'.left none = some (.inCall n) := by
        rw [hover.left, Function.update_apply]
        split
        case isTrue => exact ⟨_, rfl⟩
        case isFalse hrun => exact h.away fun hnone => hrun hnone.symm
      obtain ⟨n, hn⟩ := hmain
      rw [hn, hpc]
      exact iff_of_false nofun (fun hne => hne rfl)
  | some tid =>
      refine iff_of_true ?_ nofun
      have htid : tid ∈ tids m.lib := by
        rw [← htids]
        exact List.mem_toFinset.mp
          (hplaced.inv.known tid (Lib.Pool.places_of_running hcur))
      rw [hcur, hover.saved] at hpc
      rw [hover.left, Function.update_apply]
      by_cases he : some tid = m.lib.currentActive
      · rw [if_pos ⟨he, he ▸ nofun⟩] at hpc
        rw [if_pos he]
        exact hpc
      · rw [if_neg fun hand => he hand.1] at hpc
        rw [if_neg he, Machine.enter_left, hpc]
        have hown := h.own tid htid fun heq => he heq.symm
        cases hleft : m.left (some tid) with
        | none =>
            rw [hleft] at hown
            exact ⟨tid, rfl, hown⟩
        | some p =>
            rw [hleft] at hown
            exact hown

/-- The state before a call decides whether its switch is as it should
be. -/
theorem Settled.switchesBack_iff (h : Settled policy m)
    (hpol : policy ≠ .priority) :
    SwitchesBack b c m ↔ ¬LeavesForMain c m.lib := by
  have hlib : m.lib.schedulePolicy ≠ .priority := by
    rw [h.placed.wf.policy_eq]
    exact hpol
  constructor
  · intro hback hleaves
    obtain ⟨s', hs'⟩ := switched_of_leaves h.placed b hleaves
    rw [← Machine.call_lib hlib] at hs'
    obtain ⟨⟨out, m'⟩, hcall, heq⟩ := Option.map_eq_some_iff.mp hs'
    obtain ⟨rfl, rfl⟩ := Prod.mk.inj heq
    refine (h.resumes_iff hpol hcall).mp (hback m' hcall) ?_
    exact (idle_iff h.placed hpol (Machine.call_some_lib hlib hcall)).mpr
      hleaves
  · intro hstays m' hcall
    refine (h.resumes_iff hpol hcall).mpr fun hidle => hstays ?_
    exact (idle_iff h.placed hpol (Machine.call_some_lib hlib hcall)).mp hidle

/-- After `thread_libinit` only main has a point to continue at. -/
theorem settled_libinit (policy : Policy) (stale : Slot → Point) :
    Settled policy (Machine.libinit policy stale) where
  placed := ⟨wf_libinit policy, (full_libinit policy).toInv⟩
  main := by
    unfold Machine.libinit
    dsimp only
    rw [Contexts.getcontext_saved, if_pos rfl]
    rfl
  away hne := absurd rfl hne
  own tid htid := absurd htid List.not_mem_nil
  fresh _ _ := rfl

-- ============================================================ whole runs

/-- Under FIFO and SJF, every switch of a run continues the execution it
switches to where that execution last gave up the processor, or at its
entry, exactly when no call of the run leaves for main. -/
theorem resumes_where_left_iff (hpol : policy = .fifo ∨ policy = .sjf)
    {m₀ : Machine} (h₀ : (machine b policy).start m₀) (calls : List Call) :
    Along (machine b policy) (SwitchesBack b) calls m₀
      ↔ Along (machine b policy) (fun c m => ¬LeavesForMain c m.lib) calls
          m₀ := by
  have hne : policy ≠ .priority := by
    rintro rfl
    rcases hpol with h | h <;> cases h
  obtain ⟨stale, rfl⟩ := h₀
  refine Lib.along_congr (I := Settled policy) ?_ ?_ calls _
    (settled_libinit policy stale)
  · intro c m m' hm _ hst
    obtain ⟨⟨out, m''⟩, hcall, rfl⟩ := Option.map_eq_some_iff.mp hst
    exact hm.call hne hcall
  · exact fun c m hm => hm.switchesBack_iff hne

/-- The theorem where two threads take turns and one returns. -/
theorem resumes_where_left_turns :
    Along (machine .plain .fifo) (SwitchesBack .plain)
      [.create true true 0, .create true true 0, .yield zero, .yield zero,
        .ret zero]
      (Machine.libinit .fifo fun _ => .libinit) :=
  (resumes_where_left_iff (.inl rfl) ⟨_, rfl⟩ _).mpr (by decide +kernel)

/-- Main joins its only thread: when the thread returns, main continues in
`thread_libinit` instead of after its `thread_join`. -/
theorem main_resumes_in_libinit :
    ¬∀ calls, Along (machine .plain .fifo) (SwitchesBack .plain) calls
      (Machine.libinit .fifo fun _ => .libinit) := by
  intro hall
  have hrun := hall [.create true true 0, .join 1 zero, .ret zero]
  revert hrun
  decide +kernel

end OperatingSystem.Thread
