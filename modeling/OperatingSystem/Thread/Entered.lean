/-
One call under any policy: how it enters `my_scheduler`, and what
`my_scheduler` does around its choice.

# The shape of a call

A call returns at once, or it enters `my_scheduler` for one of the three
reasons of `Thread.Sjf`, a `SIGALRM` counting as a yield
(`call_cases`). The thread that enters has marked its record and written a
line into `log_file` (`entering`); a branch chooses (`choice_cases`); the
thread chosen is marked SCHEDULED and gets its own line (`dispatched`).
Whatever the branch, the choice itself writes no line and leaves every
record's tid, priority and status as they were (`Quiet`).
-/
import OperatingSystem.Thread.Sjf

namespace OperatingSystem.Thread

variable {b : Build} {o : Outside} {s s₁ s' s'' : Library} {c : Call}
  {out : Outcome} {me id : Int} {t cur : MyThread} {r : Option Int}
  {why : Reason} {policy : Policy}

-- ========================================================== the vocabulary

/-- Why a call enters `my_scheduler`, if it can. -/
def Call.reason : Call → Option Reason
  | .create _ _ _ => none
  | .yield _ => some .yield
  | .join tid _ => some (.join tid)
  | .ret _ => some .ret
  | .alarm _ => some .yield

/-- What the outside answers during a call. -/
def Call.outside : Call → Outside
  | .create _ _ _ => ⟨0, 0, 0, 0⟩
  | .yield o => o
  | .join _ o => o
  | .ret o => o
  | .alarm o => o

/-- What the caller writes into `log_file` before it enters. -/
def Reason.event : Reason → Event
  | .yield => .stopped
  | .join _ => .stopped
  | .ret => .finished

/-- The library `my_scheduler` is entered with. -/
def entering (why : Reason) (s : Library) : Library :=
  match s.currentActive with
  | none => s
  | some me =>
      match findByTid s me with
      | none => s
      | some cur => (s.onThread me why.record).log why.event cur

/-- The library after the switch to thread `id`. -/
def dispatched (o : Outside) (id : Int) (t : MyThread) (s : Library) :
    Library :=
  { ((s.onThread id fun t =>
      setStartTime o.startTime { t with active := true, status := .scheduled }).log
      .scheduled t) with currentActive := some id }

/-- What the log shows of a record, and whether it is FINISHED. -/
structure SameFace (t t' : MyThread) : Prop where
  tid : t'.tid = t.tid
  priority : t'.priority = t.priority
  status : t'.status = t.status

/-- No line is written and no record changes its face. -/
structure Quiet (s s' : Library) : Prop where
  log : s'.logFile = s.logFile
  records : Rewrites SameFace s s'

theorem entering_main (hcur : s.currentActive = none) :
    entering why s = s := by
  unfold entering
  rw [hcur]

theorem entering_thread (hcur : s.currentActive = some me)
    (hfind : findByTid s me = some cur) :
    entering why s = (s.onThread me why.record).log why.event cur := by
  unfold entering
  rw [hcur]
  dsimp only
  rw [hfind]

-- ============================================================ quiet steps

theorem SameFace.refl (t : MyThread) : SameFace t t := ⟨rfl, rfl, rfl⟩

theorem Quiet.of_records (hlog : s'.logFile = s.logFile)
    (h : s'.threadListHead = s.threadListHead) : Quiet s s' :=
  ⟨hlog, .refl SameFace.refl h⟩

theorem Quiet.trans (h : Quiet s s') (h' : Quiet s' s'') : Quiet s s'' := by
  refine ⟨h'.log.trans h.log, (h.records.trans h'.records).mono ?_⟩
  rintro t t'' ⟨t', ht, ht'⟩
  exact ⟨ht'.tid.trans ht.tid, ht'.priority.trans ht.priority,
    ht'.status.trans ht.status⟩

theorem quiet_onThread {f : MyThread → MyThread} (hf : ∀ t, SameFace t (f t))
    (s : Library) (me : Int) : Quiet s (s.onThread me f) := by
  refine ⟨rfl, (rewrites_onThread s me f).mono ?_⟩
  rintro t _ rfl
  split
  case isTrue => exact hf t
  case isFalse => exact SameFace.refl t

theorem quiet_measureBurst (b : Build) (now me : Int) (s : Library) :
    Quiet s (s.onThread me (measureBurst b now)) :=
  quiet_onThread (fun t => ⟨measureBurst_tid b now t,
    measureBurst_priority b now t, measureBurst_status b now t⟩) s me

/-- The log shows no suspended queue. -/
theorem quiet_suspended (g : List Int → List Int) (s : Library) (me : Int) :
    Quiet s (s.onThread me fun t =>
      { t with suspendedQueue := g t.suspendedQueue }) := by
  refine quiet_onThread ?_ s me
  exact fun _ => ⟨rfl, rfl, rfl⟩

theorem quiet_chooseNext (o : Outside) (s : Library) :
    Quiet s (chooseNext o s).2 := by
  unfold chooseNext
  split
  next =>
    unfold chooseNextThreadFIFO
    split <;> exact .of_records rfl rfl
  next =>
    unfold chooseNextThreadSJF
    split <;> exact .of_records rfl rfl
  next =>
    rcases chooseNextThreadPRI_front o.lucky s with
      ⟨-, hc⟩ | ⟨p, x, rest, -, -, hc, -⟩
    · rw [hc]
      exact .of_records rfl rfl
    · rw [hc]
      cases p <;> exact .of_records rfl rfl

theorem quiet_wake (h : wake s id = some s') : Quiet s s' := by
  unfold wake at h
  split at h
  next => exact Option.some.inj h ▸ .of_records rfl rfl
  next =>
    split at h
    next => cases h
    next => exact Option.some.inj h ▸ .of_records rfl rfl
  next =>
    split at h
    next => cases h
    next =>
      split at h
      case isTrue => exact Option.some.inj h ▸ .of_records rfl rfl
      case isFalse =>
        split at h
        case isTrue => exact Option.some.inj h ▸ .of_records rfl rfl
        case isFalse => exact Option.some.inj h ▸ .of_records rfl rfl

theorem quiet_wakeAll : ∀ (ids : List Int) {s s' : Library},
    wakeAll ids s = some s' → Quiet s s' := by
  intro ids
  induction ids with
  | nil =>
      intro s s' h
      obtain rfl := Option.some.inj h
      exact .of_records rfl rfl
  | cons id rest ih =>
      intro s s' h
      unfold wakeAll at h
      split at h
      next => cases h
      next s₁ hwake => exact (quiet_wake hwake).trans (ih h)

theorem quiet_afterFinished (h : afterFinished o cur s = some (r, s')) :
    Quiet s s' := by
  unfold afterFinished at h
  split at h
  next => cases h
  next s₁ hwake =>
    have hc := quiet_chooseNext o
      (s₁.onThread cur.tid fun t => { t with suspendedQueue := [] })
    rw [Option.some.inj h] at hc
    exact ((quiet_wakeAll _ hwake).trans
      (quiet_suspended (fun _ => []) s₁ cur.tid)).trans hc

theorem quiet_afterYield (h : afterYield b o cur s = some (r, s')) :
    Quiet s s' := by
  -- what is chosen after the thread has been put back
  have put {s₁ : Library} (h : some (chooseNext o s₁) = some (r, s'))
      (hq : Quiet s s₁) : Quiet s s' := by
    have hc := quiet_chooseNext o s₁
    rw [Option.some.inj h] at hc
    exact hq.trans hc
  unfold afterYield at h
  split at h
  next => exact put h (.of_records rfl rfl)
  next =>
    have hm := quiet_measureBurst b o.endTime cur.tid s
    have hc := quiet_chooseNext o
      (s.onThread cur.tid (measureBurst b o.endTime))
    split at h
    next s₁ heq =>
      rw [heq] at hc
      exact (Prod.mk.inj (Option.some.inj h)).2 ▸ hm.trans hc
    next _ s₁ heq =>
      rw [heq] at hc
      split at h
      next => cases h
      next =>
        obtain ⟨-, rfl⟩ := Prod.mk.inj (Option.some.inj h)
        exact (hm.trans hc).trans (.of_records rfl rfl)
  next =>
    split at h
    case isTrue => exact put h (.of_records rfl rfl)
    case isFalse =>
      split at h
      case isTrue => exact put h (.of_records rfl rfl)
      case isFalse =>
        split at h
        case isTrue => exact put h (.of_records rfl rfl)
        case isFalse =>
          obtain ⟨-, rfl⟩ := Prod.mk.inj (Option.some.inj h)
          exact .of_records rfl rfl

theorem quiet_afterStopped (h : afterStopped b o cur s = some (r, s')) :
    Quiet s s' := by
  obtain ⟨s₀, hs₀, hq⟩ : ∃ s₀, (if s.schedulePolicy = .sjf then
      s.onThread cur.tid (measureBurst b o.endTime) else s) = s₀
      ∧ Quiet s s₀ := by
    refine ⟨_, rfl, ?_⟩
    split
    case isTrue => exact quiet_measureBurst b o.endTime cur.tid s
    case isFalse => exact .of_records rfl rfl
  have hc := quiet_chooseNext o s₀
  unfold afterStopped at h
  rw [hs₀] at h
  split at h
  next s₁ heq =>
    rw [heq] at hc
    exact (Prod.mk.inj (Option.some.inj h)).2 ▸ hq.trans hc
  next _ s₁ heq =>
    rw [heq] at hc
    split at h
    next => cases h
    next =>
      obtain ⟨-, rfl⟩ := Prod.mk.inj (Option.some.inj h)
      exact (hq.trans hc).trans
        (quiet_suspended (· ++ [cur.tid]) s₁ cur.waitTid)

-- ================================================ into and out of the choice

/-- The library a branch of `my_scheduler` starts from: whoever entered has
marked its record and is no longer active. -/
def leaving (why : Reason) (me : Int) (cur : MyThread) (s : Library) :
    Library := handOver why.event why.record me cur s

/-- The branch taken, by whoever entered and why. -/
theorem choice_cases
    (h : nextThread b o (entering why s) = some (r, s₁)) :
    (s.currentActive = none ∧ chooseNext o s = (r, s₁))
    ∨ ∃ me cur, s.currentActive = some me ∧ findByTid s me = some cur
        ∧ (match why with
          | .yield => afterYield b o (why.record cur) (leaving why me cur s)
          | .join _ => afterStopped b o (why.record cur) (leaving why me cur s)
          | .ret => afterFinished o (why.record cur) (leaving why me cur s))
          = some (r, s₁) := by
  cases hcur : s.currentActive with
  | none =>
      rw [entering_main hcur] at h
      unfold nextThread at h
      rw [hcur] at h
      exact .inl ⟨rfl, Option.some.inj h⟩
  | some me =>
      cases hfind : findByTid s me with
      | none =>
          unfold entering nextThread at h
          simp only [hcur, hfind] at h
          cases h
      | some cur =>
          rw [entering_thread hcur hfind,
            nextThread_of_current why.record_tid hcur hfind] at h
          refine .inr ⟨me, cur, rfl, hfind, ?_⟩
          cases why with
          | yield | join | ret => exact h

/-- The choice is quiet, whatever the branch. -/
theorem choice_quiet
    (h : nextThread b o (entering why s) = some (r, s₁)) :
    (s.currentActive = none ∧ Quiet s s₁)
    ∨ ∃ me cur, s.currentActive = some me ∧ findByTid s me = some cur
        ∧ Quiet (leaving why me cur s) s₁ := by
  rcases choice_cases h with
    ⟨hcur, hchoice⟩ | ⟨me, cur, hcur, hfind, hbranch⟩
  · have hq := quiet_chooseNext o s
    rw [hchoice] at hq
    exact .inl ⟨hcur, hq⟩
  · refine .inr ⟨me, cur, hcur, hfind, ?_⟩
    cases why with
    | yield => exact quiet_afterYield hbranch
    | join tid => exact quiet_afterStopped hbranch
    | ret => exact quiet_afterFinished hbranch

/-- A task that is in a place is not FINISHED. -/
theorem Placed.unfinished (h : Placed policy s) {x : Int}
    (hx : (view s).places x ≠ 0) : ¬Finished s x :=
  fun hfin => hx (h.inv.done_nowhere x hfin)

/-- Nobody FINISHED is chosen. -/
theorem chosen_unfinished (h : Placed policy s)
    (hknown : ∀ tid, why = .join tid → tid ∈ tids s)
    (hnext : nextThread b o (entering why s) = some (some id, s₁)) :
    ¬Finished s₁ id := by
  have ready {x : Int} (hx : x ∈ readyIds s) : ¬Finished s x :=
    h.unfinished (Lib.Pool.places_of_ready (Multiset.mem_coe.mpr hx))
  cases hcur : s.currentActive with
  | none =>
      obtain ⟨r, s₂, hnext', htake, hb, -⟩ := main_choice h.wf h.inv hcur b o
      rw [entering_main hcur, hnext'] at hnext
      obtain ⟨rfl, rfl⟩ := Prod.mk.inj (Option.some.inj hnext)
      rw [hb.sameTasks.finished]
      cases htake with
      | next htake =>
          refine ready (Multiset.mem_coe.mp ?_)
          rw [htake]
          exact Multiset.mem_cons_self _ _
  | some me =>
      have hme : ¬Finished s me := h.unfinished (Lib.Pool.places_of_running hcur)
      cases why with
      | yield =>
          obtain ⟨cur, r, s₂, hfind, hnext', hsame, -, hcase⟩ :=
            yield_choice h.wf h.inv hcur b o
          rw [entering_thread hcur hfind] at hnext
          obtain ⟨rfl, rfl⟩ :=
            Prod.mk.inj (Option.some.inj (hnext'.symm.trans hnext))
          rw [hsame.finished]
          rcases hcase with ⟨htake, -⟩ | ⟨-, hnone, -⟩
          · cases htake with
            | next htake =>
                have hmem : id ∈ me ::ₘ (readyIds s : Multiset Int) := by
                  rw [htake]
                  exact Multiset.mem_cons_self _ _
                rcases Multiset.mem_cons.mp hmem with rfl | hmem
                · exact hme
                · exact ready (Multiset.mem_coe.mp hmem)
          · cases hnone
      | join tid =>
          obtain ⟨cur, r, s₂, hfind, hnext', -, hcase⟩ :=
            join_choice h.wf h.inv hcur (hknown tid rfl) b o
          rw [entering_thread hcur hfind] at hnext
          obtain ⟨rfl, rfl⟩ :=
            Prod.mk.inj (Option.some.inj (hnext'.symm.trans hnext))
          rcases hcase with ⟨hnone, -⟩ | ⟨n, hn, hr, -, hfin, -⟩
          · cases hnone
          · obtain rfl := Option.some.inj hn
            rw [hfin]
            refine ready (Multiset.mem_coe.mp ?_)
            rw [hr]
            exact Multiset.mem_cons_self _ _
      | ret =>
          obtain ⟨cur, r, s₂, hfind, hnext', -, htake, -, hfin, -⟩ :=
            finish_choice h.wf h.inv hcur b o
          rw [entering_thread hcur hfind] at hnext
          obtain ⟨rfl, rfl⟩ :=
            Prod.mk.inj (Option.some.inj (hnext'.symm.trans hnext))
          rw [hfin]
          obtain ⟨hnready, hnwaits⟩ := h.inv.nowhere_else hcur
          have hall := h.inv.known me (Lib.Pool.places_of_running hcur)
          have hmem : id ∈ (view s).ready + (view s).waiters me := by
            cases htake with
            | next htake =>
                rw [htake]
                exact Multiset.mem_cons_self _ _
          rcases Multiset.mem_add.mp hmem with hmem | hmem
          · refine not_or.mpr ⟨ready (Multiset.mem_coe.mp hmem), ?_⟩
            exact fun he => hnready (he ▸ hmem)
          · refine not_or.mpr
              ⟨h.unfinished (Lib.Pool.places_of_waits hall hmem), ?_⟩
            exact fun he => hnwaits me (he ▸ hmem)

/-- `my_scheduler` leaves for main, or switches to the thread it chose. -/
theorem myScheduler_cases (h : myScheduler b o s = some s') :
    (∃ s₁, nextThread b o s = some (none, s₁)
        ∧ s' = { s₁ with currentActive := none })
    ∨ ∃ id t s₁, nextThread b o s = some (some id, s₁)
        ∧ findByTid s₁ id = some t ∧ s' = dispatched o id t s₁ := by
  unfold myScheduler at h
  split at h
  next => cases h
  next s₁ hnext => exact .inl ⟨s₁, hnext, (Option.some.inj h).symm⟩
  next id s₁ hnext =>
    unfold dispatch at h
    split at h
    next => cases h
    next t hfind =>
      dsimp only at h
      rw [if_neg (by rintro ⟨-, hlt⟩; exact absurd hlt (by decide))] at h
      exact .inr ⟨id, t, s₁, hnext, hfind, (Option.some.inj h).symm⟩

theorem giveUp_entering (why : Reason) (hcur : s.currentActive = some me)
    (h : giveUp b o why.event why.record me s = some (out, s')) :
    myScheduler b o (entering why s) = some s' := by
  unfold giveUp at h
  split at h
  next => cases h
  next cur hfind =>
    obtain ⟨t, hsched, heq⟩ := Option.map_eq_some_iff.mp h
    obtain ⟨-, rfl⟩ := Prod.mk.inj heq
    rw [entering_thread hcur hfind]
    exact hsched

theorem mainGivesUp_entering (why : Reason) (hcur : s.currentActive = none)
    (h : mainGivesUp b o s = some (out, s')) :
    myScheduler b o (entering why s) = some s' := by
  obtain ⟨t, hsched, heq⟩ := Option.map_eq_some_iff.mp h
  obtain ⟨-, rfl⟩ := Prod.mk.inj heq
  rw [entering_main hcur]
  exact hsched

/-- A call that entered `my_scheduler`. -/
structure Through (b : Build) (c : Call) (why : Reason) (s s' : Library) :
    Prop where
  reason : c.reason = some why
  known : ∀ tid, why = .join tid → tid ∈ tids s
  scheduled : myScheduler b c.outside (entering why s) = some s'

/-- What a call does when the library is up: it is `thread_create`, it joins
nobody and returns at once, or it enters `my_scheduler`. -/
theorem call_cases (hinit : s.initialized = true)
    (h : call b c s = some (out, s')) :
    (∃ func malloc n, c = .create func malloc n
        ∧ threadCreate func malloc n s = (out, s'))
    ∨ (∃ tid o, c = .join tid o ∧ findByTid s tid = none ∧ s' = s)
    ∨ out = .switched ∧ ∃ why, Through b c why s s' := by
  have hup : ¬s.initialized = false := by
    rw [hinit]
    decide
  have hyield : ∀ u, Reason.yield = .join u → u ∈ tids s := by
    intro u heq
    cases heq
  have hret : ∀ u, Reason.ret = .join u → u ∈ tids s := by
    intro u heq
    cases heq
  cases c with
  | create func malloc n => exact .inl ⟨_, _, _, rfl, Option.some.inj h⟩
  | yield o =>
      rw [call, threadYield, if_neg hup] at h
      split at h
      next me hcur =>
        exact .inr (.inr ⟨giveUp_switched h, .yield, rfl, hyield,
          giveUp_entering .yield hcur h⟩)
      next hcur =>
        exact .inr (.inr ⟨mainGivesUp_switched h, .yield, rfl, hyield,
          mainGivesUp_entering .yield hcur h⟩)
  | join tid o =>
      rw [call, threadJoin, if_neg hup] at h
      split at h
      next hfind =>
        exact .inr (.inl ⟨tid, o, rfl, hfind,
          (Prod.mk.inj (Option.some.inj h)).2.symm⟩)
      next t hfind =>
        have hknown : ∀ u, Reason.join tid = .join u → u ∈ tids s := by
          rintro _ ⟨⟩
          exact mem_tids_of_findByTid hfind
        split at h
        next me hcur =>
          exact .inr (.inr ⟨giveUp_switched h, .join tid, rfl, hknown,
            giveUp_entering (.join tid) hcur h⟩)
        next hcur =>
          exact .inr (.inr ⟨mainGivesUp_switched h, .join tid, rfl, hknown,
            mainGivesUp_entering (.join tid) hcur h⟩)
  | ret o =>
      rw [call, threadReturn] at h
      split at h
      next me hcur =>
        exact .inr (.inr ⟨giveUp_switched h, .ret, rfl, hret,
          giveUp_entering .ret hcur h⟩)
      next => cases h
  | alarm o =>
      rw [call] at h
      split at h
      case isTrue =>
        unfold sigalarmHandler at h
        split at h
        next me hcur =>
          exact .inr (.inr ⟨giveUp_switched h, .yield, rfl, hyield,
            giveUp_entering .yield hcur h⟩)
        next hcur =>
          exact .inr (.inr ⟨mainGivesUp_switched h, .yield, rfl, hyield,
            mainGivesUp_entering .yield hcur h⟩)
      case isFalse => cases h

/-- The library once the new thread `tid` has been pushed. -/
def enqueued (priority tid : Int) (s : Library) : Library :=
  match s.schedulePolicy with
  | .fifo => { s with readyFIFO := s.readyFIFO ++ [tid] }
  | .sjf => { s with readySJF := s.readySJF ++ [⟨tid, QUANTA / 2⟩] }
  | .priority =>
      if priority = FIRST - 1 then
        { s with readyQueueFirst := s.readyQueueFirst ++ [tid] }
      else if priority = SECOND - 1 then
        { s with readyQueueSecond := s.readyQueueSecond ++ [tid] }
      else { s with readyQueueThird := s.readyQueueThird ++ [tid] }

theorem sameBase_enqueued (n tid : Int) (s : Library) :
    SameBase s (enqueued n tid s) ∧ (enqueued n tid s).logFile = s.logFile := by
  unfold enqueued
  split
  next => exact ⟨⟨rfl, rfl, rfl, rfl, rfl⟩, rfl⟩
  next => exact ⟨⟨rfl, rfl, rfl, rfl, rfl⟩, rfl⟩
  next =>
    split
    case isTrue => exact ⟨⟨rfl, rfl, rfl, rfl, rfl⟩, rfl⟩
    case isFalse =>
      split
      case isTrue => exact ⟨⟨rfl, rfl, rfl, rfl, rfl⟩, rfl⟩
      case isFalse => exact ⟨⟨rfl, rfl, rfl, rfl, rfl⟩, rfl⟩

/-- The library with one more record, counted. -/
def recorded (priority : Int) (estimate : Rat) (s : Library) : Library :=
  { s with
    threadCount := s.threadCount + 1
    threadListHead :=
      s.threadListHead ++ [newThread priority estimate (s.threadCount + 1)] }

/-- The library after a `thread_create` that succeeds. -/
def created (priority : Int) (estimate : Rat) (s : Library) : Library :=
  (enqueued priority (s.threadCount + 1) (recorded priority estimate s)).log
    .created (newThread priority estimate (s.threadCount + 1))

theorem created_spec (n : Int) (q : Rat) (s : Library) :
    (created n q s).threadListHead
        = s.threadListHead ++ [newThread n q (s.threadCount + 1)]
      ∧ (created n q s).currentActive = s.currentActive
      ∧ (created n q s).logFile
        = s.logFile ++ [⟨.created, s.threadCount + 1, n⟩] := by
  obtain ⟨hb, hlog⟩ :=
    sameBase_enqueued n (s.threadCount + 1) (recorded n q s)
  exact ⟨hb.records, hb.current, congrArg (· ++ [_]) hlog⟩

/-- `thread_create` changes no record and no queue, or appends a record and
pushes the new thread. -/
theorem threadCreate_cases {func malloc : Bool} {n : Int}
    (h : threadCreate func malloc n s = (out, s')) :
    (s' = s ∨ s' = { s with threadCount := s.threadCount + 1 })
    ∨ ValidPriority n ∧ ∃ q, s' = created n q s := by
  unfold threadCreate at h
  split at h
  case isTrue => exact .inl (.inl (Prod.mk.inj h).2.symm)
  case isFalse hvalid =>
  split at h
  case isTrue => exact .inl (.inl (Prod.mk.inj h).2.symm)
  case isFalse =>
  split at h
  case isTrue => exact .inl (.inl (Prod.mk.inj h).2.symm)
  case isFalse =>
  split at h
  case isTrue => exact .inl (.inr (Prod.mk.inj h).2.symm)
  case isFalse =>
  refine .inr ⟨?_, _, (Prod.mk.inj h).2.symm⟩
  unfold ValidPriority
  by_contra hno
  push Not at hno
  exact hvalid hno

end OperatingSystem.Thread
