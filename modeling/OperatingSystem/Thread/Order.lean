/-
The ready queues are served in order.

FIFO has one queue and PRIORITY three, one for each priority. Each is a
waiting line (`Lib.Served`): threads join it at the back, when they are
created, when they yield or are interrupted, and when the thread they wait
for returns, in the order in which they began to wait; they leave it at the
front, when `log_file` gets their SCHEDULED line. So in every run the
threads of a class are dispatched in exactly the order in which they became
ready (`ready_in_order`).

# How long a thread waits

Under FIFO every call that enters `my_scheduler` takes the front. Under
PRIORITY it does for the class `rand() % 19` falls to: 9 of the 19 values
for the first queue, 6 for the second, 4 for the third; other values take
the front as well when the class they fall to is empty. So a thread at
place `k` is dispatched as number `k` of its class, whatever is called, and
at the latest once `k + 1` calls with a draw of its class have been made
(`dispatched_in_turn`). SJF has no such line: its queue is ordered by
estimates.
-/
import OperatingSystem.Lib.Served
import OperatingSystem.Thread.Log

namespace OperatingSystem.Thread

open Lib (Reach Served collect turns)

-- ============================================================== the queues

/-- Thread `id` belongs to the queue's class. -/
def Queue.holds (q : Queue) (s : Library) (id : Int) : Bool :=
  match findByTid s id with
  | none => false
  | some t => q.takes t.priority

/-- The threads of the class a piece of log dispatches, in order. -/
def Queue.scheduled (q : Queue) (log : List LogLine) : List Int :=
  (log.filter fun l => l.event == .scheduled && q.takes l.priority).map
    LogLine.tid

/-- Whom the running thread makes ready, in order: itself when it yields or
is interrupted, those who wait for it when it returns. -/
def released (why : Reason) (s : Library) : List Int :=
  match why, s.currentActive with
  | .yield, some me => [me]
  | .ret, some me => suspendedOf s me
  | _, _ => []

/-- Whom a call makes ready, in order; `thread_create` the new thread. -/
def madeReady (c : Call) (s s' : Library) : List Int :=
  match c.reason with
  | none => (tids s').drop (tids s).length
  | some why => released why s

/-- Those of them who belong to the class. -/
def Queue.joins (q : Queue) (c : Call) (s s' : Library) : List Int :=
  (madeReady c s s').filter (q.holds s')

/-- The lines one call writes. -/
def written (s s' : Library) : List LogLine :=
  s'.logFile.drop s.logFile.length

/-- The call enters `my_scheduler` with a draw that falls to the queue. -/
def Queue.turn (q : Queue) (c : Call) (s : Library) : Bool :=
  match c.reason with
  | none => false
  | some (.join tid) => (findByTid s tid).isSome && q.drawn c.outside.lucky
  | some _ => q.drawn c.outside.lucky

variable {b : Build} {o : Outside} {s s₁ s' : Library} {c : Call}
  {me id : Int} {t cur : MyThread} {r : Option Int} {why : Reason}
  {policy : Policy} {p q : Queue} {n : Int} {e : Rat}

-- ======================================================== whose class it is

theorem holds_eq_roster (q : Queue) (s : Library) (id : Int) :
    q.holds s id
      = ((roster s).find? fun p => p.1 == id).any fun p => q.takes p.2 := by
  unfold Queue.holds findByTid roster
  have htid : ((fun p : Int × Int => p.1 == id)
      ∘ fun t : MyThread => (t.tid, t.priority)) = fun t => t.tid == id := rfl
  rw [List.find?_map, htid]
  cases s.threadListHead.find? fun t => t.tid == id with
  | none => rfl
  | some t => rfl

/-- Classes change with tids and priorities only, hence never. -/
theorem holds_of_roster (h : roster s' = roster s) : q.holds s' = q.holds s := by
  funext id
  rw [holds_eq_roster, holds_eq_roster, h]

theorem SameBase.roster_eq (h : SameBase s s') : roster s' = roster s := by
  unfold roster
  rw [h.records]

theorem filter_holds (hwf : Wf policy s) (hq : q.policy = policy)
    (hfind : findByTid s id = some t) :
    [id].filter (q.holds s)
      = if q = queueFor policy t.priority then [id] else [] := by
  have hiff := takes_iff hq (hwf.priority t (findByTid_some hfind).1)
  have hholds : q.holds s id = q.takes t.priority := by
    unfold Queue.holds
    rw [hfind]
  rw [List.filter_singleton, hholds]
  by_cases h : q = queueFor policy t.priority
  · rw [if_pos h, hiff.mpr h]
    rfl
  · rw [if_neg h, Bool.eq_false_iff.mpr fun ht => h (hiff.mp ht)]
    rfl

-- ============================================================ at the back

/-- A thread that is pushed joins the queue of its class. -/
theorem line_push_own (hwf : Wf policy s) (hq : q.policy = policy)
    (hfind : findByTid s id = some t) :
    q.line ((queueFor policy t.priority).push id s)
      = q.line s ++ [id].filter (q.holds s) := by
  rw [Queue.line_push, filter_holds hwf hq hfind]

/-- Those who are woken join in the order of the suspended queue. -/
theorem line_wakeAll (hq : q.policy = policy) (hpol : policy ≠ .sjf) :
    ∀ (ids : List Int) {s s' : Library}, Wf policy s →
      (∀ x ∈ ids, x ∈ tids s) → wakeAll ids s = some s' →
      q.line s' = q.line s ++ ids.filter (q.holds s) := by
  intro ids
  induction ids with
  | nil =>
      intro s s' _ _ h
      obtain rfl := Option.some.inj h
      simp
  | cons id rest ih =>
      intro s s' hwf hids h
      obtain ⟨t, hfind⟩ := findByTid_of_mem_tids (hids id List.mem_cons_self)
      obtain ⟨s₁, hwake, hpush⟩ := wake_spec hwf (hids id List.mem_cons_self)
      rw [wakeAll, hwake] at h
      have hline := ih hpush.wf (fun x hx =>
        hpush.base.tids_eq ▸ hids x (List.mem_cons_of_mem id hx)) h
      rw [hline, Option.some.inj (hwake.symm.trans (wake_eq hwf hpol hfind)),
        line_push_own hwf hq hfind,
        holds_of_roster (Queue.sameBase_push _ id s).roster_eq,
        List.append_assoc, ← List.filter_append]
      rfl

-- =========================================================== at the front

/-- Queue `p` loses its front. -/
theorem Queue.line_front {x : Int} {rest : List Int} (h : p.line s = x :: rest)
    (q : Queue) :
    q.line s = (if q = p then [x] else []) ++ q.line (p.set rest s) := by
  rw [Queue.line_set]
  by_cases hq : q = p
  · rw [if_pos hq, if_pos hq, hq, h]
    rfl
  · rw [if_neg hq, if_neg hq]
    rfl

/-- Who stands in a queue is ready, and belongs to its class. -/
theorem filter_holds_line (hwf : Wf policy s) (hp : p.policy = policy)
    (hq : q.policy = policy) {x : Int} (hx : x ∈ p.line s)
    (hid : x ∈ tids s) :
    [x].filter (q.holds s) = if q = p then [x] else [] := by
  obtain ⟨t, hfind⟩ := findByTid_of_mem_tids hid
  obtain ⟨hmem, rfl⟩ := findByTid_some hfind
  rw [filter_holds hwf hq hfind]
  suffices hown : queueFor policy t.priority = p by rw [hown]
  refine ((takes_iff hp (hwf.priority t hmem)).mp ?_).symm
  cases p with
  | fifo => rfl
  | first =>
      rw [((hwf.own hp.symm) t hmem).1 hx]
      rfl
  | second =>
      rw [((hwf.own hp.symm) t hmem).2.1 hx]
      rfl
  | third =>
      rw [((hwf.own hp.symm) t hmem).2.2 hx]
      rfl

theorem mem_readyIds_of_line (hwf : Wf policy s) (hp : p.policy = policy)
    {x : Int} (hx : x ∈ p.line s) : x ∈ readyIds s := by
  obtain rfl := hwf.policy_eq
  unfold readyIds
  rw [← hp]
  cases p with
  | fifo => exact hx
  | first => exact List.mem_append_left _ hx
  | second => exact List.mem_append_right _ (List.mem_append_left _ hx)
  | third => exact List.mem_append_right _ (List.mem_append_right _ hx)

/-- The policy's choice takes the front of a queue, and nothing from the
others. -/
theorem line_chooseNext (hwf : Wf policy s) (hq : q.policy = policy)
    (hids : ∀ x ∈ readyIds s, x ∈ tids s)
    (h : chooseNext o s = (r, s')) :
    q.line s = r.toList.filter (q.holds s) ++ q.line s'
      ∧ (q.drawn o.lucky = true → q.line s ≠ [] →
          r.toList.filter (q.holds s) ≠ []) := by
  -- the front `x` of queue `p` is taken
  have front {p : Queue} {x : Int} {rest : List Int} (hp : p.policy = policy)
      (hline : p.line s = x :: rest)
      (hdrawn : q.drawn o.lucky = true → q.line s ≠ [] → q = p)
      (h : (found x, p.set rest s) = (r, s')) :
      q.line s = r.toList.filter (q.holds s) ++ q.line s'
        ∧ (q.drawn o.lucky = true → q.line s ≠ [] →
            r.toList.filter (q.holds s) ≠ []) := by
    have hx : x ∈ p.line s := hline ▸ List.mem_cons_self
    have hid := hids x (mem_readyIds_of_line hwf hp hx)
    obtain ⟨rfl, rfl⟩ := Prod.mk.inj h
    rw [found_of_ne (hwf.ne_notFound hid), Option.toList_some,
      filter_holds_line hwf hp hq hx hid]
    refine ⟨Queue.line_front hline q, fun hd hne => ?_⟩
    rw [if_pos (hdrawn hd hne)]
    exact List.cons_ne_nil x []
  -- there is nobody to take
  have nobody (hempty : q.line s = []) (h : (found NOT_FOUND, s) = (r, s')) :
      q.line s = r.toList.filter (q.holds s) ++ q.line s'
        ∧ (q.drawn o.lucky = true → q.line s ≠ [] →
            r.toList.filter (q.holds s) ≠ []) := by
    obtain ⟨rfl, rfl⟩ := Prod.mk.inj h
    exact ⟨rfl, fun _ hne => absurd hempty hne⟩
  subst hq
  unfold chooseNext at h
  rw [hwf.policy_eq] at h
  cases hpol : q.policy with
  | sjf => cases q <;> cases hpol
  | fifo =>
      have hfifo : q = .fifo := by cases q <;> first | rfl | cases hpol
      subst hfifo
      unfold chooseNextThreadFIFO at h
      cases hline : s.readyFIFO with
      | nil =>
          simp only [Queue.policy, hline] at h
          exact nobody hline h
      | cons x rest =>
          simp only [Queue.policy, hline] at h
          exact front (p := .fifo) rfl hline (fun _ _ => rfl) h
  | priority =>
      rw [hpol] at h
      rcases chooseNextThreadPRI_front o.lucky s with
        ⟨hempty, hc⟩ | ⟨p, x, rest, hp, hline, hc, hdrawn⟩
      · simp only [hc] at h
        exact nobody (hempty q hpol) h
      · simp only [hc] at h
        exact front (hp.trans hpol.symm) hline (hdrawn q hpol) h

-- =========================================================== the branches

/-- What the three branches and main's share: the law of the line, up to
the choice. -/
def Fair (q : Queue) (lucky : Int) (s : Library) (joined : List Int)
    (r : Option Int) (s' : Library) : Prop :=
  q.line s ++ joined.filter (q.holds s)
      = r.toList.filter (q.holds s) ++ q.line s'
    ∧ (q.drawn lucky = true → q.line s ≠ [] →
        r.toList.filter (q.holds s) ≠ [])

/-- A choice made after some have joined. -/
theorem Fair.of_choice {joined : List Int} (hwf : Wf policy s₁)
    (hq : q.policy = policy) (hids : ∀ x ∈ readyIds s₁, x ∈ tids s₁)
    (hroster : roster s₁ = roster s)
    (hline : q.line s₁ = q.line s ++ joined.filter (q.holds s))
    (h : chooseNext o s₁ = (r, s')) : Fair q o.lucky s joined r s' := by
  obtain ⟨hlaw, hturn⟩ := line_chooseNext hwf hq hids h
  rw [holds_of_roster hroster] at hlaw hturn
  refine ⟨hline ▸ hlaw, fun hd hne => hturn hd fun hempty => hne ?_⟩
  rw [hline] at hempty
  exact (List.append_eq_nil_iff.mp hempty).1

/-- YIELD: the thread joins its own queue. -/
theorem fair_afterYield (hwf : Wf policy s) (hq : q.policy = policy)
    (hpol : policy ≠ .sjf) (hids : ∀ x ∈ readyIds s, x ∈ tids s)
    (hfind : findByTid s cur.tid = some t) (hpri : t.priority = cur.priority)
    (h : afterYield b o cur s = some (r, s')) :
    Fair q o.lucky s [cur.tid] r s' := by
  obtain ⟨hmem, htid⟩ := findByTid_some hfind
  rw [afterYield_push hwf hpol (hpri ▸ hwf.priority t hmem), ← hpri] at h
  have hpush := pushed_queueFor hwf hpol hmem
  rw [htid] at hpush
  refine Fair.of_choice hpush.wf hq (fun x hx => ?_) hpush.base.roster_eq
    (line_push_own hwf hq hfind) (Option.some.inj h)
  rw [hpush.base.tids_eq]
  rcases List.mem_cons.mp (hpush.perm.mem_iff.mp hx) with rfl | hx
  · exact mem_tids_of_findByTid hfind
  · exact hids x hx

/-- STOPPED: nobody joins. -/
theorem fair_afterStopped (hwf : Wf policy s) (hq : q.policy = policy)
    (hpol : policy ≠ .sjf) (hids : ∀ x ∈ readyIds s, x ∈ tids s)
    (h : afterStopped b o cur s = some (r, s')) :
    Fair q o.lucky s [] r s' := by
  unfold afterStopped at h
  rw [if_neg (by rw [hwf.policy_eq]; exact hpol)] at h
  have hchoice {r : Option Int} {s₁ : Library} (hc : chooseNext o s = (r, s₁)) :
      Fair q o.lucky s [] r s₁ :=
    Fair.of_choice hwf hq hids rfl (by simp) hc
  split at h
  next s₁ hc =>
    obtain ⟨rfl, rfl⟩ := Prod.mk.inj (Option.some.inj h)
    exact hchoice hc
  next id s₁ hc =>
    split at h
    next => cases h
    next =>
      obtain ⟨rfl, rfl⟩ := Prod.mk.inj (Option.some.inj h)
      have hfair := hchoice hc
      refine ⟨hfair.1.trans ?_, hfair.2⟩
      cases q <;> rfl

/-- FINISHED: those who waited join. -/
theorem fair_afterFinished (hwf : Wf policy s) (hq : q.policy = policy)
    (hpol : policy ≠ .sjf) (hids : ∀ x ∈ readyIds s, x ∈ tids s)
    (hsus : ∀ x ∈ cur.suspendedQueue, x ∈ tids s)
    (h : afterFinished o cur s = some (r, s')) :
    Fair q o.lucky s cur.suspendedQueue r s' := by
  obtain ⟨s₁, hwake, hb, hwf₁, hperm⟩ :=
    wakeAll_spec cur.suspendedQueue hwf hsus
  have hline := line_wakeAll hq hpol _ hwf hsus hwake
  unfold afterFinished at h
  rw [hwake] at h
  let clear : MyThread → MyThread := fun t => { t with suspendedQueue := [] }
  have hclear : ∀ t, (clear t).tid = t.tid := fun _ => rfl
  have hwf₂ : Wf policy (s₁.onThread cur.tid clear) :=
    hwf₁.onThread hclear fun _ => rfl
  refine Fair.of_choice hwf₂ hq (fun x hx => ?_) ?_ ?_ (Option.some.inj h)
  · rw [tids_onThread hclear, hb.tids_eq]
    rcases List.mem_append.mp (hperm.mem_iff.mp hx) with hx | hx
    · exact hsus x hx
    · exact hids x hx
  · exact (roster_onThread hclear (fun _ => rfl) s₁ cur.tid).trans hb.roster_eq
  · refine Eq.trans ?_ hline
    cases q <;> rfl

/-- Whatever the branch, whoever is released joins and the choice takes the
front. -/
theorem fair_choice (h : Placed policy s) (hq : q.policy = policy)
    (hpol : policy ≠ .sjf)
    (hnext : nextThread b o (entering why s) = some (r, s₁)) :
    Fair q o.lucky s (released why s) r s₁ := by
  rcases choice_cases hnext with
    ⟨hcur, hc⟩ | ⟨me, cur, hcur, hfind, hbranch⟩
  · have hnone : released why s = [] := by
      unfold released
      rw [hcur]
      cases why <;> rfl
    rw [hnone]
    exact Fair.of_choice h.wf hq (ready_known h.inv) rfl (by simp) hc
  · obtain ⟨-, rfl⟩ := findByTid_some hfind
    have hwf : Wf policy (leaving why cur.tid cur s) :=
      h.wf.handOver why.record_tid why.record_priority
    have hfind' : findByTid (leaving why cur.tid cur s) (why.record cur).tid
        = some { why.record cur with active := false } := by
      rw [why.record_tid]
      exact findByTid_handOver why.record_tid hfind
    have htids : tids (leaving why cur.tid cur s) = tids s :=
      Eq.trans (tids_onThread fun _ => rfl) (tids_onThread why.record_tid)
    have hids : ∀ x ∈ readyIds (leaving why cur.tid cur s),
        x ∈ tids (leaving why cur.tid cur s) :=
      fun x hx => htids ▸ ready_known h.inv x hx
    -- marking a record moves nobody
    have back {joined : List Int}
        (hfair : Fair q o.lucky (leaving why cur.tid cur s) joined r s₁) :
        Fair q o.lucky s joined r s₁ := by
      have hline : q.line (leaving why cur.tid cur s) = q.line s := by
        cases q <;> rfl
      unfold Fair at hfair
      rwa [holds_of_roster (roster_leaving why cur.tid cur s), hline] at hfair
    unfold released
    rw [hcur]
    cases why with
    | yield => exact back (fair_afterYield hwf hq hpol hids hfind' rfl hbranch)
    | join tid => exact back (fair_afterStopped hwf hq hpol hids hbranch)
    | ret =>
        have hqueue : suspendedOf s cur.tid = cur.suspendedQueue := by
          unfold suspendedOf
          rw [hfind]
        have hsus : ∀ x ∈ (Reason.record .ret cur).suspendedQueue,
            x ∈ tids (leaving .ret cur.tid cur s) := by
          intro x hx
          rw [htids]
          exact suspended_known h.inv cur.tid x (hqueue ▸ hx)
        dsimp only
        rw [hqueue]
        exact back (fair_afterFinished hwf hq hpol hids hsus hbranch)

-- ============================================================= one call

theorem written_eq {lines : List LogLine}
    (h : s'.logFile = s.logFile ++ lines) : written s s' = lines := by
  unfold written
  rw [h, List.drop_left]

/-- What one call does to a line. -/
structure Advances (q : Queue) (c : Call) (s s' : Library) : Prop where
  log : s'.logFile = s.logFile ++ written s s'
  law : q.line s ++ q.joins c s s' = q.scheduled (written s s') ++ q.line s'
  turn : q.turn c s = true → q.line s ≠ [] →
    q.scheduled (written s s') ≠ []

/-- Calls that touch neither the line nor the log. -/
theorem advances_idle (hlog : s'.logFile = s.logFile)
    (hline : q.line s' = q.line s) (hjoin : q.joins c s s' = [])
    (hturn : q.turn c s = false) : Advances q c s s' := by
  have hw : written s s' = [] := written_eq (by rw [hlog, List.append_nil])
  refine ⟨by rw [hw, hlog, List.append_nil], ?_, fun h => ?_⟩
  · rw [hw, hjoin, hline]
    exact List.append_nil _
  · rw [hturn] at h
    cases h

theorem enqueued_push (hp : s.schedulePolicy = policy) (hpol : policy ≠ .sjf)
    (n id : Int) : enqueued n id s = (queueFor policy n).push id s := by
  unfold enqueued
  split
  next hfifo =>
    obtain rfl : policy = .fifo := hp.symm.trans hfifo
    rfl
  next hsjf => exact absurd (hp.symm.trans hsjf) hpol
  next hpri =>
    obtain rfl : policy = .priority := hp.symm.trans hpri
    rw [queueFor_push]

/-- `thread_create`: the new thread joins its queue. -/
theorem advances_created (hwf : Wf policy s) (hwf' : Wf policy (created n e s))
    (hq : q.policy = policy) (hpol : policy ≠ .sjf) (func malloc : Bool) :
    Advances q (.create func malloc n) s (created n e s) := by
  obtain ⟨hrecords, -, hlog⟩ := created_spec n e s
  have hw := written_eq hlog
  have htids : tids (created n e s) = tids s ++ [s.threadCount + 1] := by
    unfold tids
    rw [hrecords, List.map_append]
    rfl
  have hfind : findByTid (created n e s) (s.threadCount + 1)
      = some (newThread n e (s.threadCount + 1)) :=
    findByTid_of_mem hwf'.nodup
      (t := newThread n e (s.threadCount + 1)) (by rw [hrecords]; simp)
  have hline : q.line (created n e s)
      = q.line s ++ if q = queueFor policy n then [s.threadCount + 1] else [] := by
    have hpush : enqueued n (s.threadCount + 1) (recorded n e s)
        = (queueFor policy n).push (s.threadCount + 1) (recorded n e s) :=
      enqueued_push (s := recorded n e s) hwf.policy_eq hpol n _
    have hrec : q.line (recorded n e s) = q.line s := by cases q <;> rfl
    rw [← hrec, ← Queue.line_push, ← hpush]
    cases q <;> rfl
  refine ⟨by rw [hw, hlog], ?_, nofun⟩
  have hjoin : q.joins (.create func malloc n) s (created n e s)
      = [s.threadCount + 1].filter (q.holds (created n e s)) := by
    unfold Queue.joins madeReady
    rw [htids, List.drop_left]
    rfl
  rw [hjoin, filter_holds hwf' hq hfind, hw, hline]
  rfl

/-- A call that enters `my_scheduler`. -/
theorem advances_through (h : Placed policy s) (hq : q.policy = policy)
    (hpol : policy ≠ .sjf) (ht : Through b c why s s') :
    Advances q c s s' := by
  -- up to the choice: the caller's line, and no record has changed class
  have half {r : Option Int} {s₁ : Library}
      (hnext : nextThread b c.outside (entering why s) = some (r, s₁)) :
      ∃ left, s₁.logFile = s.logFile ++ left ∧ q.scheduled left = []
        ∧ roster s₁ = roster s := by
    rcases choice_quiet hnext with ⟨-, hquiet⟩ | ⟨me, cur, -, -, hquiet⟩
    · exact ⟨[], by rw [hquiet.log, List.append_nil], rfl, hquiet.roster_eq⟩
    · refine ⟨[lineOf why.event cur], hquiet.log, ?_,
        hquiet.roster_eq.trans (roster_leaving why me cur s)⟩
      cases why <;> rfl
  have hturn (hlucky : q.turn c s = true) :
      q.drawn c.outside.lucky = true := by
    unfold Queue.turn at hlucky
    rw [ht.reason] at hlucky
    cases why with
    | join tid => exact (Bool.and_eq_true_iff.mp hlucky).2
    | yield | ret => exact hlucky
  -- after the choice: what is chosen is what the log says
  have done {r : Option Int} {s₁ : Library} {left l : List LogLine}
      (hfair : Fair q c.outside.lucky s (released why s) r s₁)
      (hlog : s'.logFile = s.logFile ++ (left ++ l))
      (hleft : q.scheduled left = [])
      (hlast : q.scheduled l = r.toList.filter (q.holds s))
      (hline : q.line s' = q.line s₁) (hroster : roster s' = roster s) :
      Advances q c s s' := by
    have hw := written_eq hlog
    have hsched : q.scheduled (written s s') = r.toList.filter (q.holds s) := by
      rw [hw, ← hlast]
      unfold Queue.scheduled at *
      rw [List.filter_append, List.map_append, hleft]
      rfl
    have hjoin : q.joins c s s' = (released why s).filter (q.holds s) := by
      unfold Queue.joins madeReady
      rw [ht.reason, holds_of_roster hroster]
    refine ⟨by rw [hw, hlog], ?_, fun hd => ?_⟩
    · rw [hjoin, hsched, hline]
      exact hfair.1
    · rw [hsched]
      exact hfair.2 (hturn hd)
  rcases myScheduler_cases ht.scheduled with
    ⟨s₁, hnext, rfl⟩ | ⟨id, t, s₁, hnext, hfind, rfl⟩
  · obtain ⟨left, hlog, hleft, hroster⟩ := half hnext
    refine done (l := []) (fair_choice h hq hpol hnext) ?_ hleft rfl ?_
      hroster
    · rw [List.append_nil]
      exact hlog
    · cases q <;> rfl
  · obtain ⟨left, hlog, hleft, hroster⟩ := half hnext
    refine done (l := [lineOf .scheduled t]) (fair_choice h hq hpol hnext)
      ?_ hleft ?_ ?_ ?_
    · rw [← List.append_assoc, ← hlog]
      rfl
    · obtain ⟨-, rfl⟩ := findByTid_some hfind
      have hholds : q.holds s t.tid = q.takes t.priority := by
        rw [← holds_of_roster hroster]
        unfold Queue.holds
        rw [hfind]
      rw [Option.toList_some, List.filter_singleton, hholds]
      unfold Queue.scheduled lineOf
      rw [List.filter_singleton]
      cases q.takes t.priority <;> rfl
    · cases q <;> rfl
    · refine Eq.trans (roster_onThread ?_ ?_ s₁ id) hroster
      · exact fun _ => rfl
      · exact fun _ => rfl

theorem advances_of_step (h : Placed policy s) (hq : q.policy = policy)
    (hst : (system b policy).step c s = some s') : Advances q c s s' := by
  have hpol : policy ≠ .sjf := hq ▸ q.policy_ne_sjf
  have hwf' := (h.step hst).1.wf
  obtain ⟨⟨out, s'⟩, hcall, rfl⟩ := Option.map_eq_some_iff.mp hst
  have same (s₁ : Library) (hrec : tids s₁ = tids s) :
      (tids s₁).drop (tids s).length = [] := by
    rw [hrec, List.drop_length]
  rcases call_cases h.wf.initialized hcall with
    ⟨func, malloc, n, rfl, hcreate⟩ | ⟨tid, o, rfl, hfind, rfl⟩
      | ⟨-, why, ht⟩
  · rcases threadCreate_cases hcreate with (rfl | rfl) | ⟨-, e, rfl⟩
    · exact advances_idle rfl rfl (congrArg (List.filter _) (same _ rfl)) rfl
    · exact advances_idle rfl (by cases q <;> rfl)
        (congrArg (List.filter _) (same _ rfl)) rfl
    · exact advances_created h.wf hwf' hq hpol func malloc
  · refine advances_idle rfl rfl ?_ ?_
    · simp [Queue.joins, madeReady, released, Call.reason]
    · unfold Queue.turn
      simp [Call.reason, hfind]
  · exact advances_through h hq hpol ht

-- ============================================================== whole runs

/-- Each queue is a waiting line, served by the SCHEDULED lines of its
class. -/
theorem served_queue (b : Build) (hq : q.policy = policy) :
    Served (system b policy) (Placed policy) q.line q.joins
      fun _ s s' => q.scheduled (written s s') where
  keep _ _ _ h hst := (h.step hst).1
  law _ _ _ h hst := (advances_of_step h hq hst).law

/-- What a run writes into `log_file` is what its calls write. -/
theorem scheduled_of_run (hq : q.policy = policy) (h : Placed policy s)
    {calls : List Call} (hrun : Lib.run (system b policy) calls s = some s') :
    q.scheduled s'.logFile = q.scheduled s.logFile
      ++ collect (system b policy) (fun _ s s' => q.scheduled (written s s'))
        calls s := by
  refine Lib.collect_history (fun s => q.scheduled s.logFile)
    (fun _ _ _ h hst => (h.step hst).1) (fun c t t' ht hst => ?_) calls h hrun
  have hlog := (advances_of_step ht hq hst).log
  unfold Queue.scheduled
  rw [← List.map_append, ← List.filter_append, ← hlog]

/-- FIFO and each class of PRIORITY, in every run: the threads that became
ready, in order, are those `log_file` shows as SCHEDULED, in order, and
then those still in the queue. -/
theorem ready_in_order (b : Build) (q : Queue) {calls : List Call}
    (hrun : Lib.run (system b q.policy) calls (libinit q.policy) = some s) :
    collect (system b q.policy) q.joins calls (libinit q.policy)
      = q.scheduled s.logFile ++ q.line s := by
  have hplaced := placed_libinit q.policy
  have hline : q.line (libinit q.policy) = [] := by cases q <;> rfl
  have hlaw := (served_queue b rfl).run calls hplaced hrun
  have hlog := scheduled_of_run (q := q) rfl hplaced hrun
  rw [hline, List.nil_append] at hlaw
  rw [hlaw, hlog]
  rfl

/-- The theorem where thread 2 waits for thread 1 in between. -/
theorem ready_in_order_wait : ∃ s,
    Lib.run (system .plain .fifo)
        [.create true true 0, .create true true 0, .yield zero, .yield zero,
          .join 1 zero, .ret zero]
        (libinit .fifo) = some s
      ∧ Queue.fifo.scheduled s.logFile = [1, 2, 1, 2]
      ∧ collect (system .plain .fifo) Queue.fifo.joins
          [.create true true 0, .create true true 0, .yield zero, .yield zero,
            .join 1 zero, .ret zero] (libinit .fifo)
        = Queue.fifo.scheduled s.logFile ++ Queue.fifo.line s := by
  let after := (Lib.run (system .plain .fifo)
    [.create true true 0, .create true true 0, .yield zero, .yield zero,
      .join 1 zero, .ret zero] (libinit .fifo)).get (by decide +kernel)
  refine ⟨after, by decide +kernel, by decide +kernel, ?_⟩
  exact ready_in_order .plain .fifo (Option.some_get _).symm

/-- FIFO and each class of PRIORITY, from every reachable state: the thread
at place `k` of its queue is number `k` of its class to be dispatched from
then on, and waits at the place the others leave him until it is, whatever
the draws; and it has been dispatched at the latest by the `k + 1`-st call
that enters `my_scheduler` with a draw of its class. -/
theorem dispatched_in_turn (b : Build) (q : Queue)
    (h : Reach (system b q.policy) Lib.Anything s) {calls : List Call}
    (hrun : Lib.run (system b q.policy) calls s = some s') {k : Nat} {x : Int}
    (hx : (q.line s)[k]? = some x) :
    ((q.scheduled s'.logFile)[(q.scheduled s.logFile).length + k]? = some x
      ∨ ∃ j, (q.line s')[j]? = some x
        ∧ (q.scheduled s'.logFile).length + j
          = (q.scheduled s.logFile).length + k)
    ∧ (k < turns (system b q.policy) q.turn calls s →
      (q.scheduled s'.logFile)[(q.scheduled s.logFile).length + k]?
        = some x) := by
  have hplaced := placed_of_reach h
  have hserved := served_queue b (q := q) rfl
  rw [scheduled_of_run rfl hplaced hrun, List.getElem?_append_right (by omega),
    Nat.add_sub_cancel_left, List.length_append]
  refine ⟨?_, hserved.in_turn (fun c t t' ht hst =>
    (advances_of_step ht rfl hst).turn) calls hplaced hrun hx⟩
  have hplace := hserved.place calls hplaced hrun hx
  rw [List.getElem?_append] at hplace
  split at hplace
  case isTrue => exact .inl hplace
  case isFalse hlate => exact .inr ⟨_, hplace, by omega⟩

/-- The theorem where thread 2 is second in the second queue. Two draws of 5
are turns of that queue; two draws of 12 are the first queue's, which is
empty, and fall through. -/
theorem dispatched_in_turn_second : ∃ s s' s'',
    Lib.run (system .plain .priority)
        [.create true true 0, .create true true 0] (libinit .priority) = some s
      ∧ (Queue.second.line s)[1]? = some 2
      ∧ Lib.run (system .plain .priority)
          [.yield ⟨0, 0, 5, 0⟩, .alarm ⟨0, 0, 5, 0⟩] s = some s'
      ∧ (Queue.second.scheduled s'.logFile)[
          (Queue.second.scheduled s.logFile).length + 1]? = some 2
      ∧ Lib.run (system .plain .priority)
          [.yield ⟨0, 0, 12, 0⟩, .alarm ⟨0, 0, 12, 0⟩] s = some s''
      ∧ (Queue.second.scheduled s''.logFile)[
          (Queue.second.scheduled s.logFile).length + 1]? = some 2 := by
  let before := (Lib.run (system .plain .priority)
    [.create true true 0, .create true true 0] (libinit .priority)).get
    (by decide +kernel)
  have hreach : Reach (system .plain .priority) Lib.Anything before :=
    Lib.reach_of_run _ rfl (Option.some_get _).symm
  let after := (Lib.run (system .plain .priority)
    [.yield ⟨0, 0, 5, 0⟩, .alarm ⟨0, 0, 5, 0⟩] before).get (by decide +kernel)
  have hafter : Lib.run (system .plain .priority)
      [.yield ⟨0, 0, 5, 0⟩, .alarm ⟨0, 0, 5, 0⟩] before = some after :=
    (Option.some_get _).symm
  let through := (Lib.run (system .plain .priority)
    [.yield ⟨0, 0, 12, 0⟩, .alarm ⟨0, 0, 12, 0⟩] before).get
    (by decide +kernel)
  have hthrough : Lib.run (system .plain .priority)
      [.yield ⟨0, 0, 12, 0⟩, .alarm ⟨0, 0, 12, 0⟩] before = some through :=
    (Option.some_get _).symm
  have hsecond : (Queue.second.line before)[1]? = some 2 := by decide +kernel
  refine ⟨before, after, through, by decide +kernel, hsecond, hafter, ?_,
    hthrough, ?_⟩
  · exact (dispatched_in_turn .plain .second hreach hafter hsecond).2
      (by decide +kernel)
  · refine (dispatched_in_turn .plain .second hreach hthrough
      hsecond).1.resolve_right ?_
    rintro ⟨j, hwaits, -⟩
    have hline : Queue.second.line through = [1] := by decide +kernel
    rw [hline] at hwaits
    exact absurd (List.mem_of_getElem? hwaits) (by decide)

end OperatingSystem.Thread
