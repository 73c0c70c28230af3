/-
Where the machine of `Thread.Alarm` can be while `SIGALRM` is delivered at
quiet points only.

# Quiet points

While `current_active` points to a thread, the handler may interrupt its
own code and the library calls it made, but not while such a call is
between what it has recorded and what it still does with it. In
`thread_yield`, `thread_join` and the handler itself that is from the
write of the status to the `swapcontext`, in `thread_create` from
`thread_count++` to the push, in `thread_wrapper` everything behind
`func`, and `my_scheduler` as a whole.

# The invariant

`Kept s` says what the library owes to everybody who is off the processor
in the state `s` between two calls: well formed, nobody in two places, and
a thread that is in a place has its own code saved and has not returned.
`Phase s` is the table of the points the running code can be at, each with
the library it has made out of `s` so far. There is one constructor for
each kind of point, and a step leads from one to another.
-/
import OperatingSystem.Thread.Alarm

namespace OperatingSystem.Thread.Alarm

open Lib (Move)

-- ========================================================== the statements

/-- Points of thread code at which an alarm does no harm. -/
def Frame.quiet : Frame → Bool
  | .user => true
  | .create (.entered _ _ _) => true
  | .create (.queued _) => true
  | .yield .entered => true
  | .yield .resumed => true
  | .join (.entered _) => true
  | .join .resumed => true
  | .wrapper _ .start => true
  | .handler .resumed => true
  | _ => false

/-- `SIGALRM` is delivered only while `current_active` is NULL or the
thread is at a quiet point. -/
def Calm (a : Action) (m : Machine) : Prop :=
  a = .alarm →
    m.lib.currentActive = none ∨ ∃ f ∈ m.frames.head?, f.quiet = true

instance (a : Action) (m : Machine) : Decidable (Calm a m) :=
  inferInstanceAs (Decidable (a = .alarm → _ ∨ _))

/-- `my_scheduler` is at its first line. -/
def Entered (m : Machine) : Prop :=
  m.frames.head? = some (.scheduler .entered)

instance (m : Machine) : Decidable (Entered m) :=
  inferInstanceAs (Decidable (_ = _))

/-- `my_scheduler` is entered with a status it has a branch for, it assigns
`nextID`, and nobody whose function has returned is in a ready queue. -/
structure Orderly (b : Build) (m : Machine) : Prop where
  status : Entered m → ∀ t ∈ m.lib.currentActive,
    ∃ cur, findByTid m.lib t = some cur
      ∧ (cur.status = .finished ∨ cur.status = .yield
        ∨ cur.status = .stopped)
  assigned : Entered m → ∀ o, nextThread b o m.lib ≠ none
  never_back : ∀ t ∈ m.returned, t ∉ readyIds m.lib

-- ============================================================= the frames

/-- What is below the code a thread or main runs. -/
def base : Option Int → List Frame
  | none => []
  | some t => [.wrapper t .calling]

/-- A library call of user code that has recorded nothing, or has nothing
left to do but to return. -/
inductive Paused : Frame → Prop
  | creates {func malloc : Bool} {n : Int} :
      Paused (.create (.entered func malloc n))
  | created {tid : Int} : Paused (.create (.queued tid))
  | yields : Paused (.yield .entered)
  | yielded : Paused (.yield .resumed)
  | joins {tid : Int} : Paused (.join (.entered tid))
  | joined : Paused (.join .resumed)

/-- The stacks of a thread or of main at a quiet point. -/
inductive Code : Option Int → List Frame → Prop
  | user {e : Option Int} : Code e (.user :: base e)
  | call {e : Option Int} {f : Frame} (hf : Paused f) :
      Code e (f :: .user :: base e)
  | start {t : Int} : Code (some t) [.wrapper t .start]
  | back {t : Int} {fs : List Frame} (h : Code (some t) fs) :
      Code (some t) (.handler .resumed :: fs)
  | libinit : Code none [.libinit, .user]

-- =============================================== who is off the processor

/-- Thread `x` has its own code saved and has not returned. -/
def Rested (saved : Slot → Context) (returned : List Int) (x : Int) : Prop :=
  Code (some x) (saved (.thread x)).frames ∧ x ∉ returned

/-- What the library owes to everybody who is off the processor. -/
structure Kept (s : Library) (saved : Slot → Context) (returned : List Int) :
    Prop where
  wf : Wf .priority s
  inv : (view s).Inv
  rested : ∀ x, (view s).places x ≠ 0 → s.currentActive ≠ some x →
    Rested saved returned x
  known : ∀ x ∈ returned, x ∈ tids s
  main : (saved .main).frames = [.libinit, .user]

/-- Whoever runs has not returned. -/
def Live (s : Library) (returned : List Int) : Prop :=
  ∀ t ∈ s.currentActive, t ∉ returned

-- ================================================= giving up the processor

/-- Why a thread gives up the processor. -/
inductive Reason
  | yield
  | join (tid : Int)
  | finished
  deriving DecidableEq, Repr

/-- What it writes into its record. -/
def Reason.mark : Reason → MyThread → MyThread
  | .yield, t => { t with status := .yield }
  | .join tid, t => { t with status := .stopped, waitTid := tid }
  | .finished, t => { t with status := .finished }

/-- What it writes into `log_file`. -/
def Reason.event : Reason → Event
  | .yield => .stopped
  | .join _ => .stopped
  | .finished => .finished

/-- The library with both. -/
def given (r : Reason) (t : Int) (cur : MyThread) (s : Library) : Library :=
  (s.onThread t r.mark).log r.event cur

/-- The running thread `t`, with record `cur`, may give up the processor
for this reason. -/
structure Gives (s : Library) (t : Int) (r : Reason) (cur : MyThread) :
    Prop where
  current : s.currentActive = some t
  record : findByTid s t = some cur
  target : ∀ u, r = .join u → u ∈ tids s

/-- Stacks that have written the record only. -/
inductive Marked (t : Int) : Reason → List Frame → Prop
  | yield : Marked t .yield (.yield (.marked t) :: .user :: base (some t))
  | wrapper : Marked t .finished [.wrapper t .marked]

/-- Stacks in front of their `swapcontext`. -/
inductive Made (t : Int) : Reason → List Frame → Prop
  | yield : Made t .yield (.yield (.made t) :: .user :: base (some t))
  | join {u : Int} :
      Made t (.join u) (.join .made :: .user :: base (some t))
  | handler {fs : List Frame} (h : Code (some t) fs) :
      Made t .yield (.handler (.made t) :: fs)
  | wrapper : Made t .finished [.wrapper t .made]

-- ============================================================== the phases

/-- `thread_create` between `thread_count++` and the push: the tid is in no
queue, and until its record is listed nobody has it. -/
inductive Creating (s : Library) (saved : Slot → Context)
    (returned : List Int) : CreatePoint → Prop
  | counted {n : Int} {blocked : Bool} (hn : ValidPriority n)
      (hpos : 0 < s.threadCount) (hfresh : s.threadCount ∉ tids s) :
      Creating s saved returned (.counted n blocked)
  | filled {n : Int} {q : Rat} {blocked : Bool} (hn : ValidPriority n)
      (hpos : 0 < s.threadCount) (hfresh : s.threadCount ∉ tids s) :
      Creating s saved returned
        (.filled (newThread n q s.threadCount) blocked)
  | listed {t : MyThread} (ht : t ∈ s.threadListHead)
      (htid : t.tid = s.threadCount) (hst : t.status ≠ .finished)
      (hno : (view s).places s.threadCount = 0)
      (hrest : Rested saved returned s.threadCount) :
      Creating s saved returned (.listed s.threadCount t.priority)

/-- `scheduler_context` is made. -/
def Ready (m : Machine) : Prop :=
  (m.cpu.saved .scheduler).frames = [.scheduler .entered]

/-- Where the running code is, `s` being the library between two calls. -/
inductive Phase (s : Library) (m : Machine) : Prop
  | code (hlib : m.lib = s) (hcode : Code s.currentActive m.frames)
      (hlive : Live s m.returned)
  | creating {p : CreatePoint} (hlib : m.lib = s)
      (hfr : m.frames = .create p :: .user :: base s.currentActive)
      (hp : Creating s m.cpu.saved m.returned p)
      (hlive : Live s m.returned)
  | idle {made : Bool} (hlib : m.lib = s) (hcur : s.currentActive = none)
      (hfr : m.frames = [.idle made, .user]) (hmade : made = true → Ready m)
  | returned {t : Int} (hlib : m.lib = s) (hcur : s.currentActive = some t)
      (hfr : m.frames = [.wrapper t .returned])
  | marked {t : Int} {r : Reason} {cur : MyThread} (hg : Gives s t r cur)
      (hlib : m.lib = s.onThread t r.mark) (hfr : Marked t r m.frames)
      (hlive : r ≠ .finished → t ∉ m.returned)
  | made {t : Int} {r : Reason} {cur : MyThread} (hg : Gives s t r cur)
      (hlib : m.lib = given r t cur s) (hfr : Made t r m.frames)
      (hready : Ready m) (hlive : r ≠ .finished → t ∉ m.returned)
  | entered {t : Int} {r : Reason} {cur : MyThread} (hg : Gives s t r cur)
      (hlib : m.lib = given r t cur s)
      (hfr : m.frames = [.scheduler .entered])
      (hrest : r ≠ .finished → Rested m.cpu.saved m.returned t)
  | enteredByMain (hlib : m.lib = s) (hcur : s.currentActive = none)
      (hfr : m.frames = [.scheduler .entered])
  | unmanned (hlib : s = { m.lib with currentActive := none })
      (hfr : m.frames = [.scheduler .idle])
  | leaving (hlib : m.lib = s) (hcur : s.currentActive = none)
      (hfr : m.frames = [.scheduler .leaving])
  | chosen {id : Int} {p : SchedulerPoint} (hlib : m.lib = s)
      (hcur : s.currentActive = some id) (hp : p = .chosen id ∨ p = .made id)
      (hfr : m.frames = [.scheduler p])
      (hrest : Rested m.cpu.saved m.returned id)

/-- The invariant. -/
def Settled (m : Machine) : Prop :=
  ∃ s, Kept s m.cpu.saved m.returned ∧ Phase s m

-- ========================================================= what is kept

variable {b : Build} {o : Outside} {s s' : Library} {m m' : Machine}
  {saved saved' : Slot → Context} {returned : List Int} {t : Int} {r : Reason}
  {cur : MyThread} {fs : List Frame}

/-- Only the objects of threads in a place matter, and main's. -/
theorem Kept.resave (h : Kept s saved returned)
    (hmain : saved' .main = saved .main)
    (hthread : ∀ x, (view s).places x ≠ 0 → s.currentActive ≠ some x →
      saved' (.thread x) = saved (.thread x)) : Kept s saved' returned where
  wf := h.wf
  inv := h.inv
  rested x hx hne := by
    obtain ⟨hcode, hret⟩ := h.rested x hx hne
    refine ⟨?_, hret⟩
    rw [hthread x hx hne]
    exact hcode
  known := h.known
  main := by
    rw [hmain]
    exact h.main

/-- A returned thread is in no ready queue. -/
theorem Kept.never_back (h : Kept s saved returned) :
    ∀ x ∈ returned, x ∉ readyIds s := by
  intro x hx hready
  have hmem : x ∈ (view s).ready := Multiset.mem_coe.mpr hready
  by_cases hcur : s.currentActive = some x
  · -- whoever runs is in no other place
    have hone := h.inv.once x
    have hpos := Multiset.count_pos.mpr hmem
    unfold Lib.Pool.places at hone
    rw [if_pos (show (view s).running = some x from hcur)] at hone
    omega
  · exact (h.rested x (Lib.Pool.places_of_ready hmem) hcur).2 hx

/-- A switch keeps what is kept, if whoever gave up the processor rests or
is in no place any more; whoever has it then was at rest. -/
theorem Kept.switch (h : Kept s saved returned) (hwf : Wf .priority s')
    (htids : tids s' = tids s) {w : Lib.Way Int}
    (hmove : Move (view s) w (view s'))
    (hrest : ∀ x, s.currentActive = some x → (view s').places x ≠ 0 →
      Rested saved returned x) :
    Kept s' saved returned
      ∧ ∀ x ∈ s'.currentActive, Rested saved returned x := by
  have hall : ∀ x, (view s').places x ≠ 0 → Rested saved returned x := by
    intro x hx
    by_cases hcur : s.currentActive = some x
    · exact hrest x hcur hx
    · refine h.rested x ?_ hcur
      have := hmove.places_le h.inv (congrArg List.toFinset htids) x
      omega
  refine ⟨⟨hwf, h.inv.move hmove, fun x hx _ => hall x hx, ?_, h.main⟩, ?_⟩
  · rw [htids]
    exact h.known
  · exact fun x hx => hall x (Lib.Pool.places_of_running hx)

-- ================================================= giving up the processor

theorem Reason.mark_tid (r : Reason) (t : MyThread) :
    (r.mark t).tid = t.tid := by
  cases r <;> rfl

/-- The record a thread has marked is found again. -/
theorem Gives.record_marked (h : Gives s t r cur) :
    findByTid (s.onThread t r.mark) t = some (r.mark cur) := by
  rw [findByTid_onThread r.mark_tid, if_pos rfl, h.record]
  rfl

/-- Its line in the log names the same tid and priority. -/
theorem log_mark (r : Reason) (s : Library) (cur : MyThread) (e : Event) :
    s.log e (r.mark cur) = s.log e cur := by
  cases r <;> rfl

/-- `my_scheduler` knows every status it is given. -/
theorem Reason.mark_status (r : Reason) (cur : MyThread) :
    (r.mark cur).status = .finished ∨ (r.mark cur).status = .yield
      ∨ (r.mark cur).status = .stopped := by
  cases r with
  | yield => exact .inr (.inl rfl)
  | join u => exact .inr (.inr rfl)
  | finished => exact .inl rfl

/-- A switch on behalf of a call is one of `my_scheduler`. -/
theorem myScheduler_of_giveUp {e : Event} {f : MyThread → MyThread}
    (hfind : findByTid s t = some cur)
    (h : giveUp b o e f t s = some (.switched, s')) :
    myScheduler b o ((s.onThread t f).log e cur) = some s' := by
  rw [giveUp_eq hfind] at h
  obtain ⟨s'', hs, heq⟩ := Option.map_eq_some_iff.mp h
  obtain ⟨-, rfl⟩ := Prod.mk.inj heq
  exact hs

/-- What `my_scheduler` makes of a thread that gives up the processor. -/
theorem Gives.switch (hg : Gives s t r cur) (h : Kept s saved returned)
    (b : Build) (o : Outside) :
    ∃ s' w, myScheduler b o (given r t cur s) = some s' ∧ Wf .priority s'
      ∧ tids s' = tids s ∧ Move (view s) w (view s')
      ∧ (r = .finished → Finished s' t) := by
  cases r with
  | yield =>
      obtain ⟨s', w, hs, hwf, htids, hmove, -⟩ :=
        giveUp_yield (b := b) (o := o) h.wf h.inv hg.current
      exact ⟨s', w, myScheduler_of_giveUp hg.record hs, hwf, htids, hmove,
        nofun⟩
  | join u =>
      obtain ⟨s', w, hs, hwf, htids, hmove, -⟩ :=
        giveUp_join (b := b) (o := o) h.wf h.inv hg.current (hg.target u rfl)
      exact ⟨s', w, myScheduler_of_giveUp hg.record hs, hwf, htids, hmove,
        nofun⟩
  | finished =>
      obtain ⟨s', hs, hwf, htids, hmove, hdone⟩ :=
        giveUp_finished_done h.wf h.inv hg.current b o
      exact ⟨s', .keep, myScheduler_of_giveUp hg.record hs, hwf, htids, hmove,
        fun _ => hdone⟩

/-- After that switch everything is kept again. -/
theorem Gives.kept (hg : Gives s t r cur) (h : Kept s saved returned)
    (hrest : r ≠ .finished → Rested saved returned t) (b : Build)
    (o : Outside) :
    ∃ s', myScheduler b o (given r t cur s) = some s'
      ∧ Kept s' saved returned
      ∧ ∀ x ∈ s'.currentActive, Rested saved returned x := by
  obtain ⟨s', w, hs, hwf, htids, hmove, hdone⟩ := hg.switch h b o
  refine ⟨s', hs, h.switch hwf htids hmove fun x hx hpl => ?_⟩
  obtain rfl : t = x := Option.some.inj (hg.current.symm.trans hx)
  refine hrest fun hr => hpl ?_
  exact (h.inv.move hmove).done_nowhere t (hdone hr)

/-- The same for main. -/
theorem Kept.main_switch (h : Kept s saved returned)
    (hcur : s.currentActive = none) (b : Build) (o : Outside) :
    ∃ s', myScheduler b o s = some s' ∧ Kept s' saved returned
      ∧ ∀ x ∈ s'.currentActive, Rested saved returned x := by
  obtain ⟨s', w, hs, hwf, htids, hmove, -⟩ :=
    mainGivesUp_move (b := b) (o := o) h.wf h.inv hcur
  obtain ⟨s'', hs'', heq⟩ := Option.map_eq_some_iff.mp hs
  obtain ⟨-, rfl⟩ := Prod.mk.inj heq
  refine ⟨s'', hs'', h.switch hwf htids hmove fun x hx _ => ?_⟩
  rw [hcur] at hx
  cases hx

-- ======================================================= new threads

/-- `thread_count++` moves nobody. -/
theorem Kept.count_succ (h : Kept s saved returned) :
    Kept { s with threadCount := s.threadCount + 1 } saved returned :=
  ⟨h.wf.count_succ, h.inv, h.rested, h.known, h.main⟩

/-- A new record gives nobody a place. -/
theorem places_append (hI : (view s).Inv) {n : Int} {q : Rat}
    (hfresh : s.threadCount ∉ tids s) (x : Int) :
    (view { s with threadListHead :=
      s.threadListHead ++ [newThread n q s.threadCount] }).places x
      = (view s).places x := by
  have hnew : s.threadCount ∉ (view s).all := fun hm =>
    hfresh (List.mem_toFinset.mp hm)
  have hview := view_append (n := n) (q := q) hfresh
  rw [← Lib.places_extend hI hnew]
  exact congrArg (fun p : Lib.Pool Int => p.places x) hview

/-- A record is listed, its context being made. -/
theorem Kept.append (h : Kept s saved returned) {n : Int} {q : Rat}
    (hn : ValidPriority n) (hpos : 0 < s.threadCount)
    (hfresh : s.threadCount ∉ tids s) :
    Kept { s with threadListHead :=
      s.threadListHead ++ [newThread n q s.threadCount] } saved returned := by
  have hview := view_append (n := n) (q := q) hfresh
  have hnew : s.threadCount ∉ (view s).all := fun hm =>
    hfresh (List.mem_toFinset.mp hm)
  refine ⟨h.wf.append h.inv hn q hpos (Int.le_refl _) hfresh, ?_, ?_, ?_,
    h.main⟩
  · exact hview ▸ h.inv.extend hnew
  · intro x hx hne
    refine h.rested x ?_ hne
    rw [places_append h.inv hfresh] at hx
    exact hx
  · intro x hx
    unfold tids
    rw [List.map_append]
    exact List.mem_append_left _ (h.known x hx)

/-- A listed thread becomes ready. -/
theorem Kept.push (h : Kept s saved returned) {x : Int}
    (hpush : Pushed .priority s x s') (hx : x ∈ tids s) (hd : ¬Finished s x)
    (hno : (view s).places x = 0) (hrest : Rested saved returned x) :
    Kept s' saved returned := by
  have hview : view s'
      = { view s with ready := x ::ₘ (view s).ready } := by
    rw [hpush.base.sameTasks.view_eq, hpush.base.current,
      Multiset.coe_eq_coe.mpr hpush.perm]
    rfl
  refine ⟨hpush.wf, ?_, ?_, ?_, h.main⟩
  · rw [hview]
    exact h.inv.push (List.mem_toFinset.mpr hx) hd hno
  · intro y hy hne
    by_cases he : y = x
    · rw [he]
      exact hrest
    · rw [hpush.base.current] at hne
      refine h.rested y ?_ hne
      rw [hview, Lib.places_push, if_neg he] at hy
      exact hy
  · rw [hpush.base.tids_eq]
    exact h.known

end OperatingSystem.Thread.Alarm
