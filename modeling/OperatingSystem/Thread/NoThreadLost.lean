/-
What the library guarantees over whole runs, for calls made by main and by
threads in any order.

# No thread is lost

As long as a thread joins only unfinished threads and closes no cycle of
waits, FIFO and PRIORITY keep every unfinished thread in exactly one place,
and leave for main only when all are FINISHED. The exits "nothing is
ready" are harmless because of acyclicity: if the running thread could
join and nobody were ready, the unfinished threads its target waits for,
directly or not, would be a nonempty set without a sink.

SJF's YIELD branch chooses before it puts the yielding thread back. When
nothing else is ready it leaves for main with the thread in no queue at
all, so the same guarantee needs every `thread_yield` of a thread to find
`ready_SJF` nonempty. FIFO and PRIORITY push first and have no such
condition.

# A join returns late enough

This needs no discipline from the caller: a thread that joins is parked
behind its target, or dropped for good, and neither comes back before the
target is FINISHED.
-/
import OperatingSystem.Thread.Refine

namespace OperatingSystem.Thread

open Lib (Move Way Reach Steps)
open Relation (ReflTransGen)

variable {policy : Policy} {b : Build} {s s' : Library} {c : Call}
  {out : Outcome}

-- ========================================================== the statements

/-- Thread `x` sits in the `suspended_queue` of thread `u`. -/
def WaitsFor (s : Library) (x u : Int) : Prop := x ∈ suspendedOf s u

/-- A `thread_join` made by a thread names an unfinished thread and closes
no cycle of waits. -/
def JoinOk (c : Call) (s : Library) : Prop :=
  ∀ tid o me, c = .join tid o → s.currentActive = some me → tid ∈ tids s →
    ¬Finished s tid ∧ ¬ReflTransGen (WaitsFor s) tid me

/-- `SIGALRM` arrives only while a thread's own code runs. -/
def AlarmOk (c : Call) (s : Library) : Prop :=
  ∀ o, c = .alarm o → s.currentActive ≠ none

/-- A `thread_yield` made by a thread finds somebody in `ready_SJF`. -/
def YieldOk (c : Call) (s : Library) : Prop :=
  ∀ o, c = .yield o → s.currentActive ≠ none → s.readySJF ≠ []

/-- The discipline of the callers. -/
def Careful (c : Call) (s : Library) : Prop := JoinOk c s ∧ AlarmOk c s

/-- How often tid `x` occurs in `current_active`, the ready structure and
all `suspended_queue`s together. -/
def occurrences (s : Library) (x : Int) : Nat :=
  (if s.currentActive = some x then 1 else 0) + (readyIds s).count x
    + ((tids s).map fun u => (suspendedOf s u).count x).sum

/-- Every unfinished thread is in exactly one place, a ready one in the
queue of its own priority, and nobody waits for a FINISHED thread. -/
structure NoThreadLost (s : Library) : Prop where
  one_place : ∀ t ∈ s.threadListHead, t.status ≠ .finished →
    occurrences s t.tid = 1
  own_queue : s.schedulePolicy = .priority → OwnQueues s
  freed : ∀ t ∈ s.threadListHead, t.status = .finished →
    t.suspendedQueue = []

/-- Every call that can be made goes through, and `my_scheduler` leaves
for main only when every thread is FINISHED. -/
def LeavesWhenDone (b : Build) (c : Call) (s : Library) : Prop :=
  ∃ out s', call b c s = some (out, s')
    ∧ (out = .switched → s'.currentActive = none →
        ∀ t ∈ s'.threadListHead, t.status = .finished)

-- ======================================================== from the view

theorem waits_eq : (view s).Waits = WaitsFor s :=
  funext fun _ => funext fun _ => propext Multiset.mem_coe

/-- The places of the view are the occurrences in the library. -/
theorem places_eq_occurrences (hwf : Wf policy s) (x : Int) :
    (view s).places x = occurrences s x := by
  unfold Lib.Pool.places occurrences
  simp only [view, Multiset.coe_count]
  rw [List.sum_toFinset _ hwf.nodup]
  rfl

theorem finished_iff (hwf : Wf policy s) {t : MyThread}
    (ht : t ∈ s.threadListHead) :
    Finished s t.tid ↔ t.status = .finished := by
  have hfind := findByTid_of_mem hwf.nodup ht
  constructor
  · rintro ⟨t', ht', hst⟩
    obtain rfl : t' = t := Option.some.inj (ht'.symm.trans hfind)
    exact hst
  · exact fun hst => ⟨t, hfind, hst⟩

theorem mem_all {t : MyThread} (ht : t ∈ s.threadListHead) :
    t.tid ∈ (view s).all :=
  List.mem_toFinset.mpr (List.mem_map_of_mem ht)

theorem suspendedOf_of_mem (hwf : Wf policy s) {t : MyThread}
    (ht : t ∈ s.threadListHead) : suspendedOf s t.tid = t.suspendedQueue := by
  unfold suspendedOf
  rw [findByTid_of_mem hwf.nodup ht]

theorem noThreadLost_of_full (hwf : Wf policy s) (hF : (view s).Full) :
    NoThreadLost s where
  one_place t ht hst := by
    rw [← places_eq_occurrences hwf]
    exact hF.somewhere t.tid (mem_all ht)
      (fun h => hst ((finished_iff hwf ht).mp h))
  own_queue hp := hwf.own (hwf.policy_eq ▸ hp)
  freed t ht hst := by
    rw [← suspendedOf_of_mem hwf ht]
    exact (Multiset.coe_eq_zero _).mp
      (hF.freed t.tid ((finished_iff hwf ht).mpr hst))

/-- After `thread_libinit` nothing exists yet. -/
theorem wf_libinit (policy : Policy) : Wf policy (libinit policy) :=
  ⟨rfl, rfl, List.nodup_nil, fun _ hu => absurd hu List.not_mem_nil,
    Int.le_refl 0, fun _ ht => absurd ht List.not_mem_nil,
    fun _ _ ht => absurd ht List.not_mem_nil⟩

theorem full_libinit (policy : Policy) : (view (libinit policy)).Full := by
  have hwait : ∀ u, (view (libinit policy)).waiters u = 0 := fun _ => rfl
  have hready : (view (libinit policy)).ready = 0 := by cases policy <;> rfl
  have hplaces : ∀ x, (view (libinit policy)).places x = 0 := fun x => by
    rw [places_eq_occurrences (wf_libinit policy)]
    cases policy <;> rfl
  have hdone : ∀ x, ¬(view (libinit policy)).done x := fun x h => by
    obtain ⟨t, ht, -⟩ := h
    cases ht
  constructor
  case toInv =>
    exact ⟨fun x => by rw [hplaces]; exact Nat.zero_le 1,
      fun x _ => hplaces x, fun x hx => absurd (hplaces x) hx,
      fun u hu => absurd (hwait u) hu, fun x hx => absurd hx (hdone x)⟩
  case somewhere => exact fun x hx => absurd hx (Finset.notMem_empty x)
  case freed => exact fun u _ => hwait u
  case acyclic =>
    intro x hx
    obtain ⟨y, h, -⟩ := Relation.TransGen.head'_iff.mp hx
    rw [waits_eq] at h
    exact absurd h List.not_mem_nil

-- ============================================================ one call

/-- What a run keeps. -/
structure Sound (policy : Policy) (s : Library) : Prop where
  wf : Wf policy s
  full : (view s).Full

/-- No call of careful threads loses a thread, except SJF's yield with
nobody ready. -/
theorem safe_of_treats (h : Sound policy s) {w : Way Int}
    (hjoin : JoinOk c s) (hyield : policy = .sjf → YieldOk c s)
    (ht : Treats s c w) : w.Safe (view s) := by
  cases c with
  | join tid o =>
      cases hcur : s.currentActive with
      | none =>
          simp only [Treats, hcur] at ht
          subst ht
          exact trivial
      | some me =>
          simp only [Treats, hcur] at ht
          obtain ⟨htid, hw⟩ := ht
          obtain ⟨hd, hno⟩ := hjoin tid o me rfl hcur htid
          rw [← waits_eq] at hno
          rcases hw with rfl | ⟨rfl, hempty⟩
          · exact ⟨hd, hno⟩
          · exact h.full.ready_of_join hcur (List.mem_toFinset.mpr htid) hd hno
              (view_ready_eq_zero.mpr hempty)
  | yield o =>
      rcases ht with ⟨rfl, -⟩ | ⟨me, hcur, hpol, hempty, rfl⟩
      · exact trivial
      · have hne := hyield (h.wf.policy_eq ▸ hpol) o rfl
          (by rw [hcur]; exact Option.some_ne_none me)
        rw [readyIds_sjf hpol] at hempty
        exact hne (List.map_eq_nil_iff.mp hempty)
  | _ =>
      obtain rfl : w = .keep := ht
      exact trivial

/-- One call of careful threads. -/
theorem Sound.call (h : Sound policy s) (b : Build) (hc : Enabled s c)
    (hjoin : JoinOk c s) (hyield : policy = .sjf → YieldOk c s) :
    ∃ out s', Thread.call b c s = some (out, s') ∧ Sound policy s'
      ∧ (out = .switched → s'.currentActive = none →
          ∀ t ∈ s'.threadListHead, t.status = .finished) := by
  obtain ⟨out, s', hcall, hwf', htids, hmove⟩ :=
    call_refines h.wf h.full.toInv b hc
  rcases hmove with ⟨hv, hout, -⟩ | ⟨w, hm, ht⟩
  · exact ⟨out, s', hcall, ⟨hwf', hv ▸ h.full⟩, fun he => absurd he hout⟩
  · have hF := h.full.move hm (safe_of_treats h hjoin hyield ht)
    refine ⟨out, s', hcall, ⟨hwf', hF⟩, fun he hidle t ht => ?_⟩
    have hready := hm.ready_of_idle (congrArg List.toFinset (htids he)) hidle
    exact (finished_iff hwf' ht).mp
      (hF.all_done hidle hready t.tid (mem_all ht))

theorem sound_of_reach {ok : Call → Library → Prop}
    (hok : ∀ c s, ok c s → JoinOk c s ∧ (policy = .sjf → YieldOk c s))
    (h : Reach (system b policy) ok s) : Sound policy s := by
  refine h.invariant ?_ ?_
  · rintro t rfl
    exact ⟨wf_libinit policy, full_libinit policy⟩
  · intro c t t' ht hc hst
    obtain ⟨⟨out, t''⟩, hcall, rfl⟩ := Option.map_eq_some_iff.mp hst
    obtain ⟨hjoin, hyield⟩ := hok c t hc
    obtain ⟨_, _, hcall', hs, -⟩ :=
      ht.call b (enabled_of_call hcall) hjoin hyield
    rw [hcall] at hcall'
    obtain ⟨-, rfl⟩ := Prod.mk.inj (Option.some.inj hcall')
    exact hs

-- ======================================================= concrete runs

/-- The outside answers 0 throughout. -/
def zero : Outside := ⟨0, 0, 0, 0⟩

theorem careful_create (func malloc : Bool) (n : Int) (s : Library) :
    Careful (.create func malloc n) s := ⟨nofun, nofun⟩

theorem careful_yield (o : Outside) (s : Library) : Careful (.yield o) s :=
  ⟨nofun, nofun⟩

/-- A join on an unfinished thread that waits for nobody closes no
cycle. -/
theorem careful_join {tid : Int} {o : Outside}
    (hme : s.currentActive ≠ some tid)
    (hst : ∀ t ∈ s.threadListHead, t.tid = tid → t.status ≠ .finished)
    (hq : ∀ t ∈ s.threadListHead, tid ∉ t.suspendedQueue) :
    Careful (.join tid o) s := by
  refine ⟨?_, nofun⟩
  rintro u o' me he hcur -
  obtain ⟨rfl, rfl⟩ : tid = u ∧ o = o' := by simpa using he
  constructor
  · rintro ⟨t, ht, hfin⟩
    obtain ⟨hmem, htid⟩ := findByTid_some ht
    exact hst t hmem htid hfin
  · intro hpath
    rcases hpath.cases_head with rfl | ⟨x, hx, -⟩
    · exact hme hcur
    · unfold WaitsFor suspendedOf at hx
      split at hx
      next t ht => exact hq t (findByTid_some ht).1 hx
      next => exact List.not_mem_nil hx

-- ================================================= no thread is lost

/-- FIFO and PRIORITY lose no thread: in every state careful callers can
reach every unfinished thread is in exactly one place, and whatever is
called next, main runs again only when every thread is FINISHED. -/
theorem no_thread_lost (hpol : policy ≠ .sjf)
    (h : Reach (system b policy) Careful s) :
    NoThreadLost s
      ∧ ∀ c, Enabled s c → Careful c s → LeavesWhenDone b c s := by
  have hs := sound_of_reach
    (fun _ _ hc => ⟨hc.1, fun hp => absurd hp hpol⟩) h
  refine ⟨noThreadLost_of_full hs.wf hs.full, fun c hen hc => ?_⟩
  obtain ⟨out, s', hcall, -, hmain⟩ :=
    hs.call b hen hc.1 fun hp => absurd hp hpol
  exact ⟨out, s', hcall, hmain⟩

/-- The theorem where thread 1 has joined thread 2, which runs. -/
theorem no_thread_lost_join : ∃ s,
    Lib.run (system .plain .fifo)
        [.create true true 0, .create true true 0, .yield zero, .join 2 zero]
        (libinit .fifo) = some s
      ∧ s.currentActive = some 2 ∧ WaitsFor s 1 2 ∧ NoThreadLost s := by
  let before := (Lib.run (system .plain .fifo)
    [.create true true 0, .create true true 0, .yield zero]
    (libinit .fifo)).get (by decide +kernel)
  let after := ((system .plain .fifo).step (.join 2 zero) before).get
    (by decide +kernel)
  have hbefore : Reach (system .plain .fifo) Careful before := by
    refine ⟨_, rfl, Lib.run_steps
      [.create true true 0, .create true true 0, .yield zero] ?_
      (Option.some_get _).symm⟩
    exact ⟨careful_create _ _ _ _, fun _ _ => ⟨careful_create _ _ _ _,
      fun _ _ => ⟨careful_yield _ _, fun _ _ => trivial⟩⟩⟩
  have hafter : Reach (system .plain .fifo) Careful after :=
    hbefore.step (careful_join (by decide +kernel) (by decide +kernel)
      (by decide +kernel)) (Option.some_get _).symm
  refine ⟨after, by decide +kernel, by decide +kernel, ?_,
    (no_thread_lost (by decide) hafter).1⟩
  unfold WaitsFor
  decide +kernel

/-- SJF loses no thread in the runs whose threads yield only while
somebody is in `ready_SJF`; the first yield that does not meet this leaves
for main and the thread is nowhere. -/
theorem no_thread_lost_sjf
    (h : Reach (system b .sjf) (fun c s => Careful c s ∧ YieldOk c s) s) :
    NoThreadLost s
      ∧ (∀ c, Enabled s c → Careful c s → YieldOk c s → LeavesWhenDone b c s)
      ∧ ∀ o me, s.currentActive = some me → s.readySJF = [] →
          ∃ s', call b (.yield o) s = some (.switched, s')
            ∧ s'.currentActive = none ∧ occurrences s' me = 0
            ∧ ∃ t ∈ s'.threadListHead, t.tid = me ∧ t.status ≠ .finished := by
  have hs := sound_of_reach (fun _ _ hc => ⟨hc.1.1, fun _ => hc.2⟩) h
  refine ⟨noThreadLost_of_full hs.wf hs.full, fun c hen hc hy => ?_,
    fun o me hcur hempty => ?_⟩
  · obtain ⟨out, s', hcall, -, hmain⟩ := hs.call b hen hc.1 fun _ => hy
    exact ⟨out, s', hcall, hmain⟩
  · obtain ⟨s', w, hcall, hwf', -, hm, hw⟩ :=
      giveUp_yield (b := b) (o := o) hs.wf hs.full.toInv hcur
    have hready : readyIds s = [] := by
      rw [readyIds_sjf hs.wf.policy_eq, hempty]
      rfl
    obtain ⟨-, hw⟩ | ⟨-, -, rfl⟩ := hw
    · exact absurd hready (hw rfl)
    have hcall' : call b (.yield o) s = some (.switched, s') := by
      rw [call, threadYield, if_neg (by rw [hs.wf.initialized]; decide), hcur]
      exact hcall
    have hall : me ∈ (view s).all :=
      hs.full.known me (Lib.Pool.places_of_running hcur)
    have hplaces := hs.full.toInv.once me
    obtain ⟨cur, hfind, hst⟩ := current_record hs.full.toInv hcur
    generalize hv : view s' = p' at hm
    cases hm with
    | drop hrun hnone =>
        have hpl := Lib.places_drop hrun me
        rw [if_pos rfl, ← hv, places_eq_occurrences hwf'] at hpl
        have hidle : s'.currentActive = none := congrArg Lib.Pool.running hv
        have hall' : me ∈ (view s').all := hv ▸ hall
        obtain ⟨t, ht, rfl⟩ := List.mem_map.mp (List.mem_toFinset.mp hall')
        refine ⟨s', hcall', hidle, by omega, t, ht, rfl, fun hfin => ?_⟩
        have hd : (view s').done t.tid := (finished_iff hwf' ht).mpr hfin
        rw [hv] at hd
        exact hs.full.toInv.not_running_of_done hd hcur

/-- The theorem where two threads take turns. -/
theorem no_thread_lost_sjf_turns : ∃ s,
    Lib.run (system .plain .sjf)
        [.create true true 0, .create true true 0, .yield zero, .yield zero]
        (libinit .sjf) = some s
      ∧ s.currentActive = some 2 ∧ NoThreadLost s := by
  let before := (Lib.run (system .plain .sjf)
    [.create true true 0, .create true true 0, .yield zero]
    (libinit .sjf)).get (by decide +kernel)
  let after := ((system .plain .sjf).step (.yield zero) before).get
    (by decide +kernel)
  have hbefore : Reach (system .plain .sjf)
      (fun c s => Careful c s ∧ YieldOk c s) before := by
    refine ⟨_, rfl, Lib.run_steps
      [.create true true 0, .create true true 0, .yield zero] ?_
      (Option.some_get _).symm⟩
    refine ⟨⟨careful_create _ _ _ _, nofun⟩, fun s₁ h₁ =>
      ⟨⟨careful_create _ _ _ _, nofun⟩, fun s₂ h₂ =>
        ⟨⟨careful_yield _ _, fun _ _ hcur => absurd ?_ hcur⟩,
          fun _ _ => trivial⟩⟩⟩
    -- `thread_create` leaves main running
    cases h₁
    cases h₂
    decide +kernel
  have hafter : Reach (system .plain .sjf)
      (fun c s => Careful c s ∧ YieldOk c s) after :=
    hbefore.step ⟨careful_yield _ _, fun _ _ _ => by decide +kernel⟩
      (Option.some_get _).symm
  exact ⟨after, by decide +kernel, by decide +kernel,
    (no_thread_lost_sjf hafter).1⟩

/-- A thread alone under SJF is lost by its own `thread_yield`. -/
theorem lone_yield_lost : ¬∀ s, Reach (system .plain .sjf) Careful s →
    NoThreadLost s := by
  intro hall
  let after := (Lib.run (system .plain .sjf)
    [.create true true 0, .yield zero, .yield zero]
    (libinit .sjf)).get (by decide +kernel)
  have hlost : ∃ t ∈ after.threadListHead,
      t.status ≠ .finished ∧ occurrences after t.tid = 0 := by
    decide +kernel
  obtain ⟨t, ht, hst, hzero⟩ := hlost
  have hone := (hall after ⟨_, rfl, Lib.run_steps
    [.create true true 0, .yield zero, .yield zero]
    ⟨careful_create _ _ _ _, fun _ _ => ⟨careful_yield _ _,
      fun _ _ => ⟨careful_yield _ _, fun _ _ => trivial⟩⟩⟩
    (Option.some_get _).symm⟩).one_place t ht hst
  omega

-- ============================================ a join returns late enough

/-- What holds in every run, whatever the callers do. -/
structure Placed (policy : Policy) (s : Library) : Prop where
  wf : Wf policy s
  inv : (view s).Inv

/-- One call, whatever the callers do. -/
theorem Placed.step (h : Placed policy s)
    (hst : (system b policy).step c s = some s') :
    Placed policy s'
      ∧ (view s' = view s ∨ ∃ w, Move (view s) w (view s')) := by
  obtain ⟨⟨out, t⟩, hcall, rfl⟩ := Option.map_eq_some_iff.mp hst
  obtain ⟨_, _, hcall', hwf', -, hm⟩ :=
    call_refines h.wf h.inv b (enabled_of_call hcall)
  rw [hcall] at hcall'
  obtain ⟨-, rfl⟩ := Prod.mk.inj (Option.some.inj hcall')
  rcases hm with ⟨hv, -⟩ | ⟨w, hm, -⟩
  · exact ⟨⟨hwf', by rw [hv]; exact h.inv⟩, .inl hv⟩
  · exact ⟨⟨hwf', h.inv.move hm⟩, .inr ⟨w, hm⟩⟩

theorem placed_libinit (policy : Policy) : Placed policy (libinit policy) :=
  ⟨wf_libinit policy, (full_libinit policy).toInv⟩

theorem placed_of_reach (h : Reach (system b policy) Lib.Anything s) :
    Placed policy s := by
  refine h.invariant ?_ fun c t t' ht _ hst => (ht.step hst).1
  rintro t rfl
  exact placed_libinit policy

/-- What every move of the pool keeps, every later state has. -/
theorem Placed.later {P : Lib.Pool Int → Prop}
    (hP : ∀ p w p', P p → Move p w p' → P p') (h : Placed policy s)
    (hs : P (view s)) (hrun : Steps (system b policy) Lib.Anything s s') :
    Placed policy s' ∧ P (view s') := by
  refine hrun.invariant (I := fun t => Placed policy t ∧ P (view t)) ?_ ⟨h, hs⟩
  rintro c t t' ⟨ht, htP⟩ - hst
  obtain ⟨ht', hv | ⟨w, hm⟩⟩ := ht.step hst
  · exact ⟨ht', hv ▸ htP⟩
  · exact ⟨ht', hP _ w _ htP hm⟩

/-- In every run, self-joins, circular joins and joins on finished threads
included: a thread that called `thread_join` on an existing thread is
dispatched again only after that thread is FINISHED, and a FINISHED thread
is never dispatched again. -/
theorem join_waits_for_finished
    (h : Reach (system b policy) Lib.Anything s) :
    (∀ me tid o out s₁ s₂, s.currentActive = some me → tid ∈ tids s →
        call b (.join tid o) s = some (out, s₁) →
        Steps (system b policy) Lib.Anything s₁ s₂ →
        s₂.currentActive = some me → Finished s₂ tid)
      ∧ ∀ tid s₂, Finished s tid →
        Steps (system b policy) Lib.Anything s s₂ →
        s₂.currentActive ≠ some tid := by
  have hs := placed_of_reach h
  constructor
  · intro me tid o out s₁ s₂ hcur htid hcall hrun hme
    obtain ⟨_, _, hcall', hwf₁, -, hm⟩ :=
      call_refines hs.wf hs.inv b (c := .join tid o) trivial
    rw [hcall] at hcall'
    obtain ⟨-, rfl⟩ := Prod.mk.inj (Option.some.inj hcall')
    rcases hm with ⟨-, -, hno⟩ | ⟨w, hm, ht⟩
    · exact absurd htid (hno tid o rfl)
    · simp only [Treats, hcur] at ht
      have hparked := Lib.parked_of_gives_up (u := tid) hs.inv hcur hm
        (ht.2.imp_right And.left)
      have hplaced₁ : Placed policy s₁ := ⟨hwf₁, hs.inv.move hm⟩
      obtain ⟨-, hparked₂⟩ := hplaced₁.later
        (P := fun p => p.Parked me tid) (fun _ _ _ hp hmv => hp.move hmv)
        hparked hrun
      exact hparked₂.done_of_running hme
  · intro tid s₂ hfin hrun
    obtain ⟨hs₂, hdone⟩ := hs.later (P := fun p => p.done tid)
      (fun _ _ _ hd hmv => hmv.done_mono hd) hfin hrun
    exact hs₂.inv.not_running_of_done hdone

/-- The theorem where thread 1 has joined thread 2 and runs again. -/
theorem join_waits_for_finished_return : ∃ s₁ s₂,
    Lib.run (system .plain .fifo)
        [.create true true 0, .create true true 0, .yield zero]
        (libinit .fifo) = some s₁
      ∧ Lib.run (system .plain .fifo) [.join 2 zero, .ret zero] s₁ = some s₂
      ∧ s₂.currentActive = some 1 ∧ Finished s₂ 2 := by
  let before := (Lib.run (system .plain .fifo)
    [.create true true 0, .create true true 0, .yield zero]
    (libinit .fifo)).get (by decide +kernel)
  let joined := (call .plain (.join 2 zero) before).get (by decide +kernel)
  let after := (Lib.run (system .plain .fifo) [.ret zero] joined.2).get
    (by decide +kernel)
  have hbefore : Reach (system .plain .fifo) Lib.Anything before :=
    Lib.reach_of_run _ rfl (Option.some_get _).symm
  have hrun : Steps (system .plain .fifo) Lib.Anything joined.2 after :=
    Lib.run_steps _ (Lib.along_anything _ _) (Option.some_get _).symm
  have hjoin : call .plain (.join 2 zero) before
      = some (joined.1, joined.2) := by
    rw [Prod.mk.eta]
    exact (Option.some_get _).symm
  refine ⟨before, after, (Option.some_get _).symm, by decide +kernel,
    by decide +kernel, ?_⟩
  obtain ⟨hreturns, -⟩ := join_waits_for_finished hbefore
  have hcur : before.currentActive = some 1 := by decide +kernel
  have htid : (2 : Int) ∈ tids before := by decide +kernel
  have hback : after.currentActive = some 1 := by decide +kernel
  exact hreturns 1 2 zero joined.1 joined.2 after hcur htid hjoin hrun hback

end OperatingSystem.Thread
