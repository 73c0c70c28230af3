/-
One call under SJF: what is in `ready_SJF` when `my_scheduler` chooses,
whom it switches to, and what is written into the records.

# The shape of a call

A call that enters `my_scheduler` does so for one of three reasons, and
all three share one description (`Chosen`): the caller's record is marked
and, unless its function has returned, its burst is measured; a FINISHED
caller's suspended queue is moved into `ready_SJF`; a minimal entry is
taken; a yielding caller is pushed behind the choice; the thread taken is
marked SCHEDULED and its clock started. The other calls append a record or
return (`call_sjf`). Nothing above this file unfolds a branch of
`my_scheduler` under SJF again.
-/
import OperatingSystem.Thread.NoThreadLost

namespace OperatingSystem.Thread

variable {b : Build} {o : Outside} {s s₁ s' : Library} {c : Call}
  {out : Outcome} {me tid id : Int} {t t' cur : MyThread} {r : Option Int}
  {e : Event} {f : MyThread → MyThread}

-- ========================================================== the vocabulary

/-- Why an execution enters `my_scheduler`. -/
inductive Reason
  | yield
  | join (tid : Int)
  | ret
  deriving DecidableEq, Repr

/-- The call that enters it for this reason. -/
def Reason.call (o : Outside) : Reason → Call
  | .yield => .yield o
  | .join tid => .join tid o
  | .ret => .ret o

/-- What the caller writes into its own record before it enters. -/
def Reason.record : Reason → MyThread → MyThread
  | .yield => fun t => { t with status := .yield }
  | .join tid => fun t => { t with status := .stopped, waitTid := tid }
  | .ret => fun t => { t with status := .finished }

variable {why : Reason}

/-- The thread whose burst is measured: the one that yields or joins. -/
def Reason.measured (why : Reason) (s : Library) : Option Int :=
  match why with
  | .ret => none
  | _ => s.currentActive

/-- `estimated_runtime` of thread `id`. -/
def estimateOf (s : Library) (id : Int) : Rat :=
  match findByTid s id with
  | some t => t.estimatedRuntime
  | none => 0

/-- The entry a woken thread gets. -/
def entryOf (s : Library) (id : Int) : Entry :=
  ⟨id, truncate (estimateOf s id)⟩

/-- Thread `id` has never run. -/
def Fresh (s : Library) (id : Int) : Prop :=
  ∃ t, findByTid s id = some t ∧ t.status = .created

/-- What is in `ready_SJF` when `my_scheduler` chooses. -/
def queueAtChoice (why : Reason) (s : Library) : List Entry :=
  match why, s.currentActive with
  | .ret, some me => s.readySJF ++ (suspendedOf s me).map (entryOf s)
  | _, _ => s.readySJF

/-- The top of a priority queue. -/
def top (tie : Nat) (q : List Entry) : Option Entry :=
  (minimal q)[tie % (minimal q).length]?

/-- What measuring a burst writes, `start_time` and `end_time` apart. -/
structure Timing where
  yieldCount : Int
  timeFirst : Int
  timeSecond : Int
  timeThird : Int
  estimatedRuntime : Rat
  deriving DecidableEq, Repr

def timing (t : MyThread) : Timing where
  yieldCount := t.yieldCount
  timeFirst := t.timeFirst
  timeSecond := t.timeSecond
  timeThird := t.timeThird
  estimatedRuntime := t.estimatedRuntime

/-- The slot of the plain build a burst goes into. -/
def Timing.store (burst : Int) (d : Timing) : Timing :=
  if d.yieldCount.tmod 3 = FIRST then { d with timeFirst := burst }
  else if d.yieldCount.tmod 3 = SECOND then { d with timeSecond := burst }
  else { d with timeThird := burst }

/-- `set_estimated_time`, on what it writes. -/
def Timing.update (burst : Int) : Build → Timing → Timing
  | .plain, d =>
      if (d.store burst).yieldCount > 2 then
        { d.store burst with estimatedRuntime :=
            (((d.store burst).timeFirst + (d.store burst).timeSecond
              + (d.store burst).timeThird).tdiv 3 : Int) }
      else d.store burst
  | .aging, d => { d with
      estimatedRuntime := burst * (1 / 2) + d.estimatedRuntime * (1 / 2) }

/-- One more burst. -/
def Timing.measure (b : Build) (burst : Int) (d : Timing) : Timing :=
  { d.update burst b with
    yieldCount := (d.update burst b).yieldCount + 1 }

/-- Every record is rewritten in place, `t` to a `t'` that `R` relates. -/
def Rewrites (R : MyThread → MyThread → Prop) (s s' : Library) : Prop :=
  ∃ g, s'.threadListHead = s.threadListHead.map g ∧ ∀ t, R t (g t)

/-- `t'` is `t` but for what no burst and no choice depends on; `who` is no
longer CREATED. -/
structure Marked (who : Option Int) (t t' : MyThread) : Prop where
  tid : t'.tid = t.tid
  timing : timing t' = timing t
  startTime : t'.startTime = t.startTime
  created : t'.status = .created ↔ t.status = .created ∧ who ≠ some t.tid

/-- What `my_scheduler` has made of record `t` when it has chosen. -/
structure Leaves (b : Build) (o : Outside) (why : Reason) (s : Library)
    (t t' : MyThread) : Prop where
  tid : t'.tid = t.tid
  timing : timing t' = if why.measured s = some t.tid
    then (timing t).measure b (o.endTime - t.startTime) else timing t
  created : t'.status = .created ↔ t.status = .created
    ∧ s.currentActive ≠ some t.tid

/-- What a call that entered `my_scheduler` made of record `t`. -/
structure After (b : Build) (o : Outside) (why : Reason) (s s' : Library)
    (t t' : MyThread) : Prop where
  tid : t'.tid = t.tid
  timing : timing t' = if why.measured s = some t.tid
    then (timing t).measure b (o.endTime - t.startTime) else timing t
  created : t'.status = .created ↔ t.status = .created
    ∧ s.currentActive ≠ some t.tid ∧ s'.currentActive ≠ some t.tid

/-- What a call that entered `my_scheduler` did. -/
structure Chosen (b : Build) (o : Outside) (why : Reason)
    (s s' : Library) : Prop where
  count : s'.threadCount = s.threadCount
  current : s'.currentActive = (top o.tie (queueAtChoice why s)).map Entry.id
  ready : ∀ e ∈ s'.readySJF, e ∈ queueAtChoice why s
    ∨ s.currentActive = some e.id ∧ e = entryOf s' e.id
  records : Rewrites (After b o why s s') s s'

/-- `my_scheduler` when it has chosen `r`. -/
structure Left (b : Build) (o : Outside) (why : Reason) (s : Library)
    (r : Option Int) (s₁ : Library) : Prop where
  count : s₁.threadCount = s.threadCount
  choice : r = (top o.tie (queueAtChoice why s)).map Entry.id
  ready : ∀ e ∈ s₁.readySJF, e ∈ queueAtChoice why s
    ∨ s.currentActive = some e.id ∧ e = entryOf s₁ e.id
  records : Rewrites (Leaves b o why s) s s₁

-- =========================================================== the records

/-- Where a record is found after all of them are rewritten. -/
theorem findByTid_map {g : MyThread → MyThread} (hg : ∀ t, (g t).tid = t.tid)
    (h : s'.threadListHead = s.threadListHead.map g) (u : Int) :
    findByTid s' u = (findByTid s u).map g := by
  unfold findByTid
  rw [h, List.find?_map]
  congr 2
  funext t
  simp [hg]

theorem Rewrites.refl {R : MyThread → MyThread → Prop} (hR : ∀ t, R t t)
    (h : s'.threadListHead = s.threadListHead) : Rewrites R s s' :=
  ⟨id, by rw [h, List.map_id], hR⟩

theorem Rewrites.trans {R R' : MyThread → MyThread → Prop} {s₂ : Library}
    (h : Rewrites R s s₁) (h' : Rewrites R' s₁ s₂) :
    Rewrites (Relation.Comp R R') s s₂ := by
  obtain ⟨g, hg, hR⟩ := h
  obtain ⟨g', hg', hR'⟩ := h'
  exact ⟨g' ∘ g, by rw [hg', hg, List.map_map],
    fun t => ⟨g t, hR t, hR' (g t)⟩⟩

theorem Rewrites.mono {R R' : MyThread → MyThread → Prop}
    (h : Rewrites R s s') (hR : ∀ t t', R t t' → R' t t') :
    Rewrites R' s s' := by
  obtain ⟨g, hg, hgR⟩ := h
  exact ⟨g, hg, fun t => hR t _ (hgR t)⟩

/-- A write through a pointer. -/
theorem rewrites_onThread (s : Library) (me : Int) (f : MyThread → MyThread) :
    Rewrites (fun t t' => t' = if t.tid = me then f t else t) s
      (s.onThread me f) :=
  ⟨_, rfl, fun _ => rfl⟩

/-- Estimates that no record changes, no thread changes. -/
theorem Rewrites.estimateOf_eq {R : MyThread → MyThread → Prop}
    (h : Rewrites R s s') (htid : ∀ t t', R t t' → t'.tid = t.tid)
    (hest : ∀ t t', R t t' → timing t' = timing t) (id : Int) :
    estimateOf s' id = estimateOf s id := by
  obtain ⟨g, hg, hR⟩ := h
  unfold estimateOf
  rw [findByTid_map (fun t => htid _ _ (hR t)) hg]
  cases findByTid s id with
  | none => rfl
  | some t => exact congrArg Timing.estimatedRuntime (hest t _ (hR t))

/-- `set_estimated_time` of the plain build: a slot, then the estimate. -/
theorem setEstimatedTimePlain_store (t : MyThread) :
    ∃ t', timing t' = (timing t).store (t.endTime - t.startTime)
      ∧ setEstimatedTimePlain t = if t'.yieldCount > 2 then { t' with
          estimatedRuntime :=
            ((t'.timeFirst + t'.timeSecond + t'.timeThird).tdiv 3 : Int) }
        else t' := by
  refine ⟨_, ?_, rfl⟩
  have hcount : (timing t).yieldCount = t.yieldCount := rfl
  unfold Timing.store
  rw [hcount]
  by_cases hfirst : t.yieldCount.tmod 3 = FIRST
  · rw [if_pos hfirst, if_pos hfirst]
    rfl
  · rw [if_neg hfirst, if_neg hfirst]
    by_cases hsecond : t.yieldCount.tmod 3 = SECOND
    · rw [if_pos hsecond, if_pos hsecond]
      rfl
    · rw [if_neg hsecond, if_neg hsecond]
      rfl

theorem timing_setEstimatedTime (b : Build) (t : MyThread) :
    timing (setEstimatedTime b t)
      = (timing t).update (t.endTime - t.startTime) b := by
  cases b with
  | plain =>
      obtain ⟨t', hstore, heq⟩ := setEstimatedTimePlain_store t
      rw [setEstimatedTime, heq, Timing.update, ← hstore]
      by_cases h : t'.yieldCount > 2
      · rw [if_pos h, if_pos (show (timing t').yieldCount > 2 from h)]
        rfl
      · rw [if_neg h, if_neg (show ¬(timing t').yieldCount > 2 from h)]
  | aging => rfl

/-- Measuring a burst reads nothing else of the record but `start_time`. -/
theorem timing_measureBurst (b : Build) (now : Int) (t : MyThread) :
    timing (measureBurst b now t)
      = (timing t).measure b (now - t.startTime) := by
  have h := timing_setEstimatedTime b (setEndTime now t)
  unfold Timing.measure
  rw [show (timing t).update (now - t.startTime) b = _ from h.symm]
  rfl

-- ============================================================ the choice

/-- The top is in the queue, and no entry precedes it. -/
theorem top_spec {tie : Nat} {q : List Entry} {e : Entry}
    (h : top tie q = some e) :
    e ∈ q ∧ ∀ x ∈ q, e.priority ≤ x.priority := by
  have hmem := List.mem_filter.mp (List.mem_of_getElem? h)
  refine ⟨hmem.1, fun x hx => ?_⟩
  simpa using List.all_eq_true.mp hmem.2 x hx

/-- Any entry no other precedes may be on top. -/
theorem exists_top {q : List Entry} {e : Entry} (he : e ∈ q)
    (hmin : ∀ x ∈ q, e.priority ≤ x.priority) :
    ∃ tie, top tie q = some e := by
  have hmem : e ∈ minimal q := List.mem_filter.mpr ⟨he, by
    simpa using hmin⟩
  obtain ⟨i, hi, rfl⟩ := List.mem_iff_getElem.mp hmem
  exact ⟨i, by rw [top, Nat.mod_eq_of_lt hi, List.getElem?_eq_getElem hi]⟩

/-- A priority queue without its top. -/
def popped (tie : Nat) (q : List Entry) : List Entry :=
  match top tie q with
  | none => q
  | some e => q.erase e

theorem mem_of_mem_popped {tie : Nat} {q : List Entry} {x : Entry}
    (hx : x ∈ popped tie q) : x ∈ q := by
  unfold popped at hx
  split at hx
  next => exact hx
  next => exact List.mem_of_mem_erase hx

theorem chooseNext_sjf (hpol : s.schedulePolicy = .sjf) :
    chooseNext o s = ((top o.tie s.readySJF).map Entry.id,
      { s with readySJF := popped o.tie s.readySJF }) := by
  have hsjf : chooseNext o s = ((chooseNextThreadSJF o.tie s).1.map Entry.id,
      (chooseNextThreadSJF o.tie s).2) := by
    unfold chooseNext
    rw [hpol]
  rw [hsjf]
  unfold chooseNextThreadSJF popped
  cases h : top o.tie s.readySJF with
  | none =>
      rw [show (minimal s.readySJF)[o.tie % (minimal s.readySJF).length]? = _
        from h]
  | some e =>
      rw [show (minimal s.readySJF)[o.tie % (minimal s.readySJF).length]? = _
        from h]

/-- Waking under SJF: the thread gets an entry with its estimate. -/
theorem wake_sjf (hpol : s.schedulePolicy = .sjf) (h : wake s id = some s') :
    s' = { s with readySJF := s.readySJF ++ [entryOf s id] } := by
  unfold wake at h
  split at h
  next hp => rw [hpol] at hp; cases hp
  next =>
    cases hfind : findByTid s id with
    | none => simp [hfind] at h
    | some t =>
        rw [hfind] at h
        rw [← Option.some.inj h, entryOf, estimateOf, hfind]
  next hp => rw [hpol] at hp; cases hp

theorem wakeAll_sjf : ∀ (ids : List Int) {s s' : Library},
    s.schedulePolicy = .sjf → wakeAll ids s = some s' →
    s' = { s with readySJF := s.readySJF ++ ids.map (entryOf s) } := by
  intro ids
  induction ids with
  | nil =>
      rintro s s' - h
      obtain rfl := Option.some.inj h
      simp
  | cons id rest ih =>
      intro s s' hpol h
      unfold wakeAll at h
      cases hwake : wake s id with
      | none => simp [hwake] at h
      | some s₁ =>
          have hrest : wakeAll rest s₁ = some s' := by
            simpa only [hwake] using h
          obtain rfl := wake_sjf hpol hwake
          rw [ih (by exact hpol) hrest]
          simp only [List.map_cons, List.append_assoc, List.singleton_append]
          rfl

-- ======================================================== into and out of it

/-- Bursts and choices do not depend on suspended queues. -/
theorem rewrites_suspended (g : List Int → List Int) (me : Int)
    (h : s'.threadListHead = (s.onThread me fun t =>
      { t with suspendedQueue := g t.suspendedQueue }).threadListHead) :
    Rewrites (Marked none) s s' := by
  refine Rewrites.mono ⟨_, h, fun _ => rfl⟩ (R := fun t t' => _ = t') ?_
  rintro t _ rfl
  split
  case isTrue => exact ⟨rfl, rfl, rfl, by simp⟩
  case isFalse => exact ⟨rfl, rfl, rfl, by simp⟩

theorem Reason.record_tid (why : Reason) (t : MyThread) :
    (why.record t).tid = t.tid := by
  cases why <;> rfl

theorem Reason.record_marked (why : Reason) (t : MyThread) :
    Marked (some t.tid) t (why.record t) := by
  cases why <;> exact ⟨rfl, rfl, rfl, by simp [Reason.record]⟩

/-- The running thread marks itself and hands over. -/
theorem rewrites_handOver (why : Reason) (e : Event) (me : Int)
    (cur : MyThread) (s : Library) :
    Rewrites (Marked (some me)) s (handOver e why.record me cur s) := by
  have h₁ : Rewrites (fun t t' => t' = if t.tid = me then why.record t else t)
      s ((s.onThread me why.record).log e cur) := rewrites_onThread s me _
  have h₂ := rewrites_onThread ((s.onThread me why.record).log e cur) me
    fun t => { t with active := false }
  refine (h₁.trans h₂).mono ?_
  rintro t _ ⟨_, rfl, rfl⟩
  by_cases h : t.tid = me
  · have hm := why.record_marked t
    rw [if_pos h, if_pos (hm.tid.trans h), ← h]
    exact ⟨hm.tid, hm.timing, hm.startTime, hm.created⟩
  · rw [if_neg h, if_neg h]
    refine ⟨rfl, rfl, rfl, ?_⟩
    simp [Ne.symm h]

/-- The thread taken is marked SCHEDULED and its clock started. -/
def started (o : Outside) (r : Option Int) (t : MyThread) : MyThread :=
  if r = some t.tid then
    setStartTime o.startTime { t with active := true, status := .scheduled }
  else t

@[simp] theorem started_tid (o : Outside) (r : Option Int) (t : MyThread) :
    (started o r t).tid = t.tid := by
  unfold started
  split <;> rfl

@[simp] theorem timing_started (o : Outside) (r : Option Int) (t : MyThread) :
    timing (started o r t) = timing t := by
  unfold started
  split <;> rfl

theorem started_created : (started o r t).status = .created
    ↔ t.status = .created ∧ r ≠ some t.tid := by
  unfold started
  split
  case isTrue h => simp [setStartTime, h]
  case isFalse h => simp [h]

/-- The switch to `r`. -/
structure Switched (o : Outside) (r : Option Int) (s₁ s' : Library) :
    Prop where
  count : s'.threadCount = s₁.threadCount
  current : s'.currentActive = r
  ready : s'.readySJF = s₁.readySJF
  records : s'.threadListHead = s₁.threadListHead.map (started o r)

theorem myScheduler_inv (h : myScheduler b o s = some s') :
    ∃ r s₁, nextThread b o s = some (r, s₁) ∧ Switched o r s₁ s' := by
  unfold myScheduler at h
  cases hnext : nextThread b o s with
  | none => simp [hnext] at h
  | some p =>
      obtain ⟨r, s₁⟩ := p
      refine ⟨r, s₁, rfl, ?_⟩
      cases r with
      | none =>
          simp only [hnext] at h
          obtain rfl := Option.some.inj h
          refine ⟨rfl, rfl, rfl, ?_⟩
          have hid : started o none = id := rfl
          rw [hid, List.map_id]
      | some id =>
          simp only [hnext] at h
          unfold dispatch at h
          cases hfind : findByTid s₁ id with
          | none => simp [hfind] at h
          | some t =>
              simp only [hfind] at h
              rw [if_neg (by rintro ⟨-, hlt⟩; exact absurd hlt (by decide))]
                at h
              obtain rfl := Option.some.inj h
              refine ⟨rfl, rfl, rfl, ?_⟩
              refine List.map_congr_left fun t _ => ?_
              simp [started, eq_comm]

theorem giveUp_inv (hf : ∀ t, (f t).tid = t.tid)
    (hcur : s.currentActive = some me)
    (h : giveUp b o e f me s = some (out, s')) :
    ∃ cur r s₁, findByTid s me = some cur
      ∧ (match (f cur).status with
          | .finished => afterFinished o (f cur) (handOver e f me cur s)
          | .yield => afterYield b o (f cur) (handOver e f me cur s)
          | .stopped => afterStopped b o (f cur) (handOver e f me cur s)
          | _ => none) = some (r, s₁)
      ∧ Switched o r s₁ s' := by
  cases hfind : findByTid s me with
  | none => simp [giveUp, hfind] at h
  | some cur =>
      rw [giveUp_eq hfind] at h
      obtain ⟨t, hsched, heq⟩ := Option.map_eq_some_iff.mp h
      obtain ⟨-, rfl⟩ := Prod.mk.inj heq
      obtain ⟨r, s₁, hnext, hsw⟩ := myScheduler_inv hsched
      rw [nextThread_of_current hf hcur hfind] at hnext
      exact ⟨cur, r, s₁, rfl, hnext, hsw⟩

/-- What is known at the choice is known after the switch. -/
theorem Left.switched (h : Left b o why s r s₁) (hsw : Switched o r s₁ s') :
    Chosen b o why s s' := by
  have hstart : Rewrites (fun t t' => started o r t = t') s₁ s' :=
    ⟨_, hsw.records, fun _ => rfl⟩
  have hest : ∀ id, entryOf s' id = entryOf s₁ id := fun id => by
    unfold entryOf
    rw [hstart.estimateOf_eq (by rintro t _ rfl; exact started_tid o r t)
      (by rintro t _ rfl; exact timing_started o r t)]
  refine ⟨hsw.count.trans h.count, hsw.current.trans h.choice, ?_, ?_⟩
  · intro e he
    rw [hsw.ready] at he
    exact (h.ready e he).imp_right fun hme => ⟨hme.1, by rw [hest]; exact hme.2⟩
  · refine (h.records.trans hstart).mono ?_
    rintro t _ ⟨t', ht, rfl⟩
    refine ⟨by rw [started_tid, ht.tid], by rw [timing_started, ht.timing], ?_⟩
    rw [started_created, ht.created, ht.tid, hsw.current, and_assoc]

-- ========================================================== the branches

/-- A thread that marks itself and whose burst is then measured. -/
theorem rewrites_leaves {s₂ : Library} (h : Rewrites (Marked (some me)) s s₁)
    (h' : Rewrites (Marked none) (s₁.onThread me (measureBurst b o.endTime))
      s₂)
    (hcur : s.currentActive = some me) (hwhy : why.measured s = some me) :
    Rewrites (Leaves b o why s) s s₂ := by
  refine ((h.trans (rewrites_onThread s₁ me _)).trans h').mono ?_
  rintro t t' ⟨_, ⟨t₁, h₁, rfl⟩, h₂⟩
  have htid := h₂.tid
  have htiming := h₂.timing
  have hcreated := h₂.created
  rw [h₁.tid] at htid htiming hcreated
  by_cases hme : t.tid = me
  · rw [if_pos hme] at htid htiming hcreated
    rw [measureBurst_tid] at htid
    rw [timing_measureBurst, h₁.timing, h₁.startTime] at htiming
    rw [measureBurst_status, h₁.created] at hcreated
    refine ⟨htid.trans h₁.tid, ?_, ?_⟩
    · rw [hwhy, if_pos (congrArg some hme.symm), htiming]
    · rw [hcreated, hcur]
      simp
  · rw [if_neg hme] at htid htiming hcreated
    rw [h₁.created] at hcreated
    refine ⟨htid.trans h₁.tid, ?_, ?_⟩
    · rw [hwhy, if_neg fun he => hme (Option.some.inj he).symm, htiming,
        h₁.timing]
    · rw [hcreated, hcur]
      simp

/-- Main's choice under SJF. -/
theorem left_main (hpol : s.schedulePolicy = .sjf)
    (hcur : s.currentActive = none) (why : Reason) :
    ∃ r s₁, nextThread b o s = some (r, s₁) ∧ Left b o why s r s₁ := by
  have hqueue : queueAtChoice why s = s.readySJF := by
    unfold queueAtChoice
    rw [hcur]
    cases why <;> rfl
  have hmeasured : why.measured s = none := by
    cases why with
    | ret => rfl
    | yield | join => exact hcur
  have hnext : nextThread b o s = some (chooseNext o s) := by
    unfold nextThread
    rw [hcur]
  rw [chooseNext_sjf hpol] at hnext
  refine ⟨_, _, hnext, rfl, by rw [hqueue], ?_, ?_⟩
  · exact fun e he => .inl (hqueue ▸ mem_of_mem_popped he)
  · refine .refl (fun t => ⟨rfl, ?_, ?_⟩) rfl
    · rw [hmeasured, if_neg nofun]
    · simp [hcur]

theorem afterYield_sjf (hpol : s.schedulePolicy = .sjf)
    (h : afterYield b o cur s = some (r, s₁)) :
    r = (top o.tie s.readySJF).map Entry.id ∧ s₁.threadCount = s.threadCount
      ∧ s₁.threadListHead
        = (s.onThread cur.tid (measureBurst b o.endTime)).threadListHead
      ∧ ∀ e ∈ s₁.readySJF, e ∈ s.readySJF ∨ e = entryOf s₁ cur.tid := by
  unfold afterYield at h
  split at h
  next hp => rw [hpol] at hp; cases hp
  next =>
    rw [chooseNext_sjf (by exact hpol)] at h
    generalize hs₀ : s.onThread cur.tid (measureBurst b o.endTime) = s₀ at h ⊢
    have hready : s₀.readySJF = s.readySJF := by rw [← hs₀]; rfl
    have hcount : s₀.threadCount = s.threadCount := by rw [← hs₀]; rfl
    rw [hready] at h
    cases htop : top o.tie s.readySJF with
    | none =>
        rw [htop] at h
        obtain ⟨rfl, rfl⟩ := Prod.mk.inj (Option.some.inj h)
        exact ⟨rfl, hcount, rfl, fun e he => .inl (mem_of_mem_popped he)⟩
    | some e =>
        simp only [htop, Option.map_some] at h
        split at h
        next => cases h
        next cur' hfind =>
          obtain ⟨rfl, rfl⟩ := Prod.mk.inj (Option.some.inj h)
          refine ⟨rfl, hcount, rfl, fun x hx => ?_⟩
          refine (List.mem_append.mp hx).imp mem_of_mem_popped fun hx => ?_
          have hfind₀ : findByTid s₀ cur.tid = some cur' := hfind
          obtain ⟨-, htid⟩ := findByTid_some hfind
          rw [List.mem_singleton.mp hx, htid]
          show _ = (⟨cur.tid, truncate (estimateOf s₀ cur.tid)⟩ : Entry)
          rw [estimateOf, hfind₀]
  next hp => rw [hpol] at hp; cases hp

theorem afterStopped_sjf (hpol : s.schedulePolicy = .sjf)
    (h : afterStopped b o cur s = some (r, s₁)) :
    r = (top o.tie s.readySJF).map Entry.id ∧ s₁.threadCount = s.threadCount
      ∧ Rewrites (Marked none)
        (s.onThread cur.tid (measureBurst b o.endTime)) s₁
      ∧ ∀ e ∈ s₁.readySJF, e ∈ s.readySJF := by
  unfold afterStopped at h
  rw [if_pos hpol, chooseNext_sjf (by exact hpol)] at h
  generalize hs₀ : s.onThread cur.tid (measureBurst b o.endTime) = s₀ at h ⊢
  have hready : s₀.readySJF = s.readySJF := by rw [← hs₀]; rfl
  have hcount : s₀.threadCount = s.threadCount := by rw [← hs₀]; rfl
  rw [hready] at h
  cases htop : top o.tie s.readySJF with
  | none =>
      rw [htop] at h
      obtain ⟨rfl, rfl⟩ := Prod.mk.inj (Option.some.inj h)
      exact ⟨rfl, hcount, .refl (fun t => ⟨rfl, rfl, rfl, by simp⟩) rfl,
        fun e he => mem_of_mem_popped he⟩
  | some e =>
      simp only [htop, Option.map_some] at h
      split at h
      next => cases h
      next =>
        obtain ⟨rfl, rfl⟩ := Prod.mk.inj (Option.some.inj h)
        refine ⟨rfl, hcount, ?_, fun x hx => mem_of_mem_popped hx⟩
        exact rewrites_suspended (· ++ [cur.tid]) cur.waitTid rfl

theorem afterFinished_sjf (hpol : s.schedulePolicy = .sjf)
    (h : afterFinished o cur s = some (r, s₁)) :
    r = (top o.tie (s.readySJF ++ cur.suspendedQueue.map (entryOf s))).map
        Entry.id
      ∧ s₁.threadCount = s.threadCount ∧ Rewrites (Marked none) s s₁
      ∧ ∀ e ∈ s₁.readySJF,
        e ∈ s.readySJF ++ cur.suspendedQueue.map (entryOf s) := by
  unfold afterFinished at h
  cases hwake : wakeAll cur.suspendedQueue s with
  | none => simp [hwake] at h
  | some s₀ =>
      obtain rfl := wakeAll_sjf _ hpol hwake
      simp only [hwake] at h
      rw [chooseNext_sjf (by exact hpol)] at h
      obtain ⟨rfl, rfl⟩ := Prod.mk.inj (Option.some.inj h)
      refine ⟨rfl, rfl, ?_, fun x hx => mem_of_mem_popped hx⟩
      exact rewrites_suspended (fun _ => []) cur.tid rfl

-- ============================================================ one call

theorem chosen_main (hpol : s.schedulePolicy = .sjf)
    (hcur : s.currentActive = none) (why : Reason)
    (h : mainGivesUp b o s = some (out, s')) : Chosen b o why s s' := by
  obtain ⟨t, hsched, heq⟩ := Option.map_eq_some_iff.mp h
  obtain ⟨-, rfl⟩ := Prod.mk.inj heq
  obtain ⟨r, s₁, hnext, hsw⟩ := myScheduler_inv hsched
  obtain ⟨r', s₁', hnext', hleft⟩ := left_main (b := b) (o := o) hpol hcur why
  obtain ⟨rfl, rfl⟩ :=
    Prod.mk.inj (Option.some.inj (hnext.symm.trans hnext'))
  exact hleft.switched hsw

theorem chosen_yield (hpol : s.schedulePolicy = .sjf)
    (hcur : s.currentActive = some me)
    (h : giveUp b o e Reason.yield.record me s = some (out, s')) :
    Chosen b o .yield s s' := by
  obtain ⟨cur, r, s₁, hfind, hafter, hsw⟩ :=
    giveUp_inv (Reason.record_tid _) hcur h
  obtain ⟨-, rfl⟩ := findByTid_some hfind
  obtain ⟨rfl, hcount, hrec, hready⟩ := afterYield_sjf (by exact hpol) hafter
  refine Left.switched ⟨hcount, ?_, fun e he => ?_, ?_⟩ hsw
  · rfl
  · refine (hready e he).imp_right fun heq => ?_
    rw [heq]
    exact ⟨hcur, rfl⟩
  · exact rewrites_leaves (rewrites_handOver .yield e cur.tid cur s)
      (.refl (fun t => ⟨rfl, rfl, rfl, by simp⟩) hrec) hcur hcur

theorem chosen_join (hpol : s.schedulePolicy = .sjf)
    (hcur : s.currentActive = some me)
    (h : giveUp b o e (Reason.join tid).record me s = some (out, s')) :
    Chosen b o (.join tid) s s' := by
  obtain ⟨cur, r, s₁, hfind, hafter, hsw⟩ :=
    giveUp_inv (Reason.record_tid _) hcur h
  obtain ⟨-, rfl⟩ := findByTid_some hfind
  obtain ⟨rfl, hcount, hrec, hready⟩ := afterStopped_sjf (by exact hpol) hafter
  refine Left.switched ⟨hcount, ?_, fun e he => ?_, ?_⟩ hsw
  · rfl
  · exact .inl (hready e he)
  · exact rewrites_leaves (rewrites_handOver (.join tid) e cur.tid cur s)
      hrec hcur hcur

theorem chosen_ret (hpol : s.schedulePolicy = .sjf)
    (hcur : s.currentActive = some me)
    (h : giveUp b o e Reason.ret.record me s = some (out, s')) :
    Chosen b o .ret s s' := by
  obtain ⟨cur, r, s₁, hfind, hafter, hsw⟩ :=
    giveUp_inv (Reason.record_tid _) hcur h
  have hmark := rewrites_handOver .ret e me cur s
  obtain ⟨rfl, hcount, hrec, hready⟩ := afterFinished_sjf (by exact hpol) hafter
  have hentry : entryOf (handOver e Reason.ret.record me cur s)
      = entryOf s := by
    funext id
    unfold entryOf
    rw [hmark.estimateOf_eq (fun _ _ h => h.tid) fun _ _ h => h.timing]
  have hqueue : queueAtChoice .ret s
      = s.readySJF ++ cur.suspendedQueue.map (entryOf s) := by
    unfold queueAtChoice suspendedOf
    rw [hcur]
    dsimp only
    rw [hfind]
  rw [hentry] at hready
  refine Left.switched ⟨hcount, ?_, fun e he => ?_, ?_⟩ hsw
  · rw [hqueue, hentry]
    rfl
  · rw [hqueue]
    exact .inl (hready e he)
  · refine (hmark.trans hrec).mono ?_
    rintro t t' ⟨t₁, h₁, h₂⟩
    refine ⟨h₂.tid.trans h₁.tid, ?_, ?_⟩
    · rw [h₂.timing, h₁.timing]
      exact (if_neg nofun).symm
    · rw [h₂.created, h₁.created, h₁.tid, hcur]
      simp

/-- A call that enters `my_scheduler` under SJF. -/
theorem chosen_of_call (hpol : s.schedulePolicy = .sjf)
    (h : call b (why.call o) s = some (.switched, s')) :
    Chosen b o why s s' := by
  cases why with
  | yield =>
      rw [Reason.call, call, threadYield] at h
      split at h
      case isTrue => cases h
      case isFalse =>
        cases hcur : s.currentActive with
        | none =>
            simp only [hcur] at h
            exact chosen_main hpol hcur .yield h
        | some me =>
            simp only [hcur] at h
            exact chosen_yield hpol hcur h
  | join tid =>
      rw [Reason.call, call, threadJoin] at h
      split at h
      case isTrue => cases h
      case isFalse =>
        split at h
        next => cases h
        next =>
          cases hcur : s.currentActive with
          | none =>
              simp only [hcur] at h
              exact chosen_main hpol hcur (.join tid) h
          | some me =>
              simp only [hcur] at h
              exact chosen_join hpol hcur h
  | ret =>
      rw [Reason.call, call, threadReturn] at h
      cases hcur : s.currentActive with
      | none => simp [hcur] at h
      | some me =>
          simp only [hcur] at h
          exact chosen_ret hpol hcur h

/-- `thread_create` returns. -/
theorem threadCreate_returned (func malloc : Bool) (n : Int) :
    ∃ v, (threadCreate func malloc n s).1 = .returned v := by
  unfold threadCreate
  split
  case isTrue => exact ⟨_, rfl⟩
  case isFalse =>
  split
  case isTrue => exact ⟨_, rfl⟩
  case isFalse =>
  split
  case isTrue => exact ⟨_, rfl⟩
  case isFalse =>
  dsimp only
  split
  case isTrue => exact ⟨_, rfl⟩
  case isFalse => exact ⟨_, rfl⟩

theorem giveUp_switched (h : giveUp b o e f me s = some (out, s')) :
    out = .switched := by
  unfold giveUp at h
  split at h
  next => cases h
  next =>
    obtain ⟨_, -, heq⟩ := Option.map_eq_some_iff.mp h
    exact (Prod.mk.inj heq).1.symm

theorem mainGivesUp_switched (h : mainGivesUp b o s = some (out, s')) :
    out = .switched := by
  obtain ⟨_, -, heq⟩ := Option.map_eq_some_iff.mp h
  exact (Prod.mk.inj heq).1.symm

/-- Any other call that returns at once has done nothing. -/
theorem eq_of_returned {v : Int} (hc : ∀ func malloc n, c ≠ .create func malloc n)
    (h : call b c s = some (.returned v, s')) : s' = s := by
  cases c with
  | create func malloc n => exact absurd rfl (hc func malloc n)
  | yield o =>
      rw [call, threadYield] at h
      split at h
      case isTrue => exact (Prod.mk.inj (Option.some.inj h)).2.symm
      case isFalse =>
        split at h
        next => cases giveUp_switched h
        next => cases mainGivesUp_switched h
  | join tid o =>
      rw [call, threadJoin] at h
      split at h
      case isTrue => exact (Prod.mk.inj (Option.some.inj h)).2.symm
      case isFalse =>
        split at h
        next => exact (Prod.mk.inj (Option.some.inj h)).2.symm
        next =>
          split at h
          next => cases giveUp_switched h
          next => cases mainGivesUp_switched h
  | ret o =>
      rw [call, threadReturn] at h
      split at h
      next => cases giveUp_switched h
      next => cases h
  | alarm o =>
      rw [call] at h
      split at h
      case isTrue =>
        unfold sigalarmHandler at h
        split at h
        next => cases giveUp_switched h
        next => cases mainGivesUp_switched h
      case isFalse => cases h

/-- `thread_create` under SJF, the stack allocated. -/
def createdSjf (priority : Int) (s : Library) : Library :=
  let tid := s.threadCount + 1
  let t := newThread priority
    (averageTimeSoFar { s with threadCount := tid }) tid
  { s with
    threadCount := tid
    threadListHead := s.threadListHead ++ [t]
    readySJF := s.readySJF ++ [⟨tid, QUANTA / 2⟩]
    logFile := s.logFile ++ [⟨.created, t.tid, t.priority⟩] }

/-- `thread_create` refuses, runs out of memory, or appends a record. -/
theorem threadCreate_sjf (hpol : s.schedulePolicy = .sjf) {func malloc : Bool}
    {n : Int} (h : threadCreate func malloc n s = (out, s')) :
    s' = s ∨ s' = { s with threadCount := s.threadCount + 1 }
      ∨ ValidPriority n ∧ func = true ∧ malloc = true
        ∧ s' = createdSjf n s := by
  unfold threadCreate at h
  split at h
  case isTrue => exact .inl (Prod.mk.inj h).2.symm
  case isFalse hvalid =>
  split at h
  case isTrue => exact .inl (Prod.mk.inj h).2.symm
  case isFalse hfunc =>
  split at h
  case isTrue => exact .inl (Prod.mk.inj h).2.symm
  case isFalse =>
  split at h
  case isTrue => exact .inr (.inl (Prod.mk.inj h).2.symm)
  case isFalse hmalloc =>
  refine .inr (.inr ⟨?_, by simpa using hfunc, by simpa using hmalloc, ?_⟩)
  · unfold ValidPriority
    by_contra hno
    push Not at hno
    exact hvalid hno
  · dsimp only at h
    split at h
    next hp => rw [hpol] at hp; cases hp
    next => exact (Prod.mk.inj h).2.symm
    next hp => rw [hpol] at hp; cases hp

/-- What a call does under SJF: it returns at once or is a choice. -/
theorem call_sjf (hpol : s.schedulePolicy = .sjf)
    (h : call b c s = some (out, s')) :
    (∃ v, out = .returned v)
        ∧ (s' = s ∨ s' = { s with threadCount := s.threadCount + 1 }
          ∨ ∃ n, ValidPriority n ∧ c = .create true true n
            ∧ s' = createdSjf n s)
      ∨ ∃ o why, c = why.call o ∧ out = .switched ∧ Chosen b o why s s' := by
  cases out with
  | returned v =>
      refine .inl ⟨⟨v, rfl⟩, ?_⟩
      cases c with
      | create func malloc n =>
          rcases threadCreate_sjf hpol (Option.some.inj h) with
            hs | hs | ⟨hn, rfl, rfl, hs⟩
          · exact .inl hs
          · exact .inr (.inl hs)
          · exact .inr (.inr ⟨n, hn, rfl, hs⟩)
      | yield o | join tid o | ret o | alarm o =>
          exact .inl (eq_of_returned (by simp) h)
  | switched =>
      have entered {o : Outside} {why : Reason} (hc : c = why.call o) :
          ∃ o why, c = why.call o ∧ Outcome.switched = .switched
            ∧ Chosen b o why s s' :=
        ⟨o, why, hc, rfl, chosen_of_call hpol (hc ▸ h)⟩
      refine .inr ?_
      cases c with
      | create func malloc n =>
          obtain ⟨v, hv⟩ := threadCreate_returned (s := s) func malloc n
          have := Option.some.inj h
          rw [this] at hv
          cases hv
      | yield o => exact entered (show _ = Reason.yield.call o from rfl)
      | join tid o => exact entered (show _ = (Reason.join tid).call o from rfl)
      | ret o => exact entered (show _ = Reason.ret.call o from rfl)
      | alarm o =>
          rw [call, if_neg (by rw [hpol]; decide)] at h
          cases h

end OperatingSystem.Thread
