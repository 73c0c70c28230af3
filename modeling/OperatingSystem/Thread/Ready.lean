/-
The policy's ready structure: one queue under FIFO, one priority queue
under SJF, three queues under PRIORITY.

Whatever the policy, `choose_next_thread` takes one thread out of it
(`chooseNext_spec`) and a push puts one thread in (`Pushed`), under
PRIORITY always into the queue of the thread's own priority. The FIFO queue
and the three of PRIORITY are served alike: they are the `Queue`s.
-/
import OperatingSystem.Thread.View
import Mathlib.Data.Finset.Max

namespace OperatingSystem.Thread

open Lib (Takes)

-- ============================================================== the queues

/-- The queues served from the front. -/
inductive Queue
  | fifo
  | first
  | second
  | third
  deriving DecidableEq, Repr

/-- The policy that has the queue. -/
def Queue.policy : Queue → Policy
  | .fifo => .fifo
  | .first | .second | .third => .priority

/-- Who stands in the queue. -/
def Queue.line : Queue → Library → List Int
  | .fifo, s => s.readyFIFO
  | .first, s => s.readyQueueFirst
  | .second, s => s.readyQueueSecond
  | .third, s => s.readyQueueThird

/-- The priorities whose threads it takes. -/
def Queue.takes : Queue → Int → Bool
  | .fifo, _ => true
  | .first, n => n == FIRST - 1
  | .second, n => n == SECOND - 1
  | .third, n => n == THIRD - 1

/-- The draws of `rand() % 19` that fall to it. -/
def Queue.drawn : Queue → Int → Bool
  | .fifo, _ => true
  | .first, lucky => decide (10 ≤ lucky)
  | .second, lucky => decide (4 ≤ lucky) && decide (lucky < 10)
  | .third, lucky => decide (lucky < 4)

variable {s s' s'' : Library} {policy : Policy} {id : Int} {t : MyThread}
  {p q : Queue}

-- ==================================================== the ready structure

/-- Everything but the ready queues and the log. -/
structure SameBase (s s' : Library) : Prop where
  initialized : s'.initialized = s.initialized
  policy_eq : s'.schedulePolicy = s.schedulePolicy
  count : s'.threadCount = s.threadCount
  records : s'.threadListHead = s.threadListHead
  current : s'.currentActive = s.currentActive

theorem SameBase.trans (h : SameBase s s') (h' : SameBase s' s'') :
    SameBase s s'' :=
  ⟨h'.1.trans h.1, h'.2.trans h.2, h'.3.trans h.3, h'.4.trans h.4,
    h'.5.trans h.5⟩

theorem SameBase.wf (h : SameBase s s') (hwf : Wf policy s)
    (hown : policy = .priority → OwnQueues s') : Wf policy s' := by
  have htids : tids s' = tids s := by unfold tids; rw [h.records]
  exact ⟨h.initialized ▸ hwf.initialized, h.policy_eq ▸ hwf.policy_eq,
    htids ▸ hwf.nodup, by rw [htids, h.count]; exact hwf.range,
    h.count ▸ hwf.count, h.records ▸ hwf.priority, hown⟩

theorem takes_of_perm {l l' : List Int} (h : l.Perm (id :: l')) :
    Takes (l : Multiset Int) (some id) (l' : Multiset Int) :=
  .next (Multiset.coe_eq_coe.mpr h)

theorem takes_nil : Takes (([] : List Int) : Multiset Int) none
    (([] : List Int) : Multiset Int) :=
  .empty rfl

theorem found_of_ne (h : id ≠ NOT_FOUND) : found id = some id :=
  if_neg h

/-- A nonempty priority queue has a top. -/
theorem minimal_ne_nil {q : List Entry} (h : q ≠ []) : minimal q ≠ [] := by
  obtain ⟨e, he, hmin⟩ := Finset.exists_min_image q.toFinset Entry.priority
    (by
      obtain ⟨x, l, rfl⟩ := List.exists_cons_of_ne_nil h
      exact ⟨x, by simp⟩)
  refine List.ne_nil_of_mem (a := e) (List.mem_filter.mpr ⟨?_, ?_⟩)
  · exact List.mem_toFinset.mp he
  · simp only [List.all_eq_true, decide_eq_true_eq]
    exact fun x hx => hmin x (List.mem_toFinset.mpr hx)

/-- What `choose_next_thread_SJF` takes is an entry no other precedes. -/
theorem chooseNextThreadSJF_cases (tie : Nat) (s : Library) :
    (s.readySJF = [] ∧ chooseNextThreadSJF tie s = (none, s))
    ∨ ∃ e ∈ s.readySJF, (∀ x ∈ s.readySJF, e.priority ≤ x.priority)
        ∧ chooseNextThreadSJF tie s
          = (some e, { s with readySJF := s.readySJF.erase e }) := by
  unfold chooseNextThreadSJF
  by_cases hq : s.readySJF = []
  · exact .inl ⟨hq, by simp [hq, minimal]⟩
  · have hlen : 0 < (minimal s.readySJF).length :=
      List.length_pos_iff.mpr (minimal_ne_nil hq)
    have hlt := Nat.mod_lt tie hlen
    have hmem := List.getElem_mem hlt
    rw [List.getElem?_eq_getElem hlt]
    obtain ⟨hin, hall⟩ := List.mem_filter.mp hmem
    refine .inr ⟨_, hin, fun x hx => ?_, rfl⟩
    simpa using List.all_eq_true.mp hall x hx

-- ======================================================= one of the queues

/-- The queue a thread of this priority is pushed into. -/
def queueFor (policy : Policy) (priority : Int) : Queue :=
  match policy with
  | .priority =>
      if priority = FIRST - 1 then .first
      else if priority = SECOND - 1 then .second
      else .third
  | _ => .fifo

theorem queueFor_policy (hpol : policy ≠ .sjf) (n : Int) :
    (queueFor policy n).policy = policy := by
  cases policy with
  | fifo => rfl
  | sjf => exact absurd rfl hpol
  | priority =>
      unfold queueFor
      dsimp only
      split_ifs <;> rfl

/-- Each class has its own queue. -/
theorem takes_iff (hq : q.policy = policy) {n : Int} (hn : ValidPriority n) :
    q.takes n = true ↔ q = queueFor policy n := by
  subst hq
  rcases hn with rfl | rfl | rfl <;> cases q <;> decide

/-- The library with another line in one queue. -/
def Queue.set (p : Queue) (line : List Int) (s : Library) : Library :=
  match p with
  | .fifo => { s with readyFIFO := line }
  | .first => { s with readyQueueFirst := line }
  | .second => { s with readyQueueSecond := line }
  | .third => { s with readyQueueThird := line }

theorem Queue.line_set (q p : Queue) (line : List Int) (s : Library) :
    q.line (p.set line s) = if q = p then line else q.line s := by
  cases p <;> cases q <;> rfl

theorem Queue.sameBase_set (p : Queue) (line : List Int) (s : Library) :
    SameBase s (p.set line s) := by
  cases p <;> exact ⟨rfl, rfl, rfl, rfl, rfl⟩

theorem Queue.set_line (p : Queue) (s : Library) : p.set (p.line s) s = s := by
  cases p <;> rfl

theorem Queue.policy_ne_sjf (p : Queue) : p.policy ≠ .sjf := by
  cases p <;> decide

/-- Next to the line of queue `p` some other threads are ready. -/
theorem Queue.readyIds_set (hp : s.schedulePolicy = p.policy) :
    ∃ others, ∀ line, (readyIds (p.set line s)).Perm (line ++ others) := by
  cases p with
  | fifo =>
      refine ⟨[], fun line => ?_⟩
      simp [readyIds, Queue.set, hp, Queue.policy]
  | first =>
      refine ⟨s.readyQueueSecond ++ s.readyQueueThird, fun line => ?_⟩
      simp [readyIds, Queue.set, hp, Queue.policy]
  | second =>
      refine ⟨s.readyQueueFirst ++ s.readyQueueThird, fun line => ?_⟩
      simp only [readyIds, Queue.set, hp, Queue.policy]
      exact List.perm_append_comm_assoc _ _ _
  | third =>
      refine ⟨s.readyQueueFirst ++ s.readyQueueSecond, fun line => ?_⟩
      simp only [readyIds, Queue.set, hp, Queue.policy]
      rw [← List.append_assoc]
      exact List.perm_append_comm

theorem ownQueues_iff : OwnQueues s ↔ ∀ t ∈ s.threadListHead, ∀ p : Queue,
    p.policy = .priority → t.tid ∈ p.line s → p.takes t.priority = true := by
  refine forall₂_congr fun t _ => ?_
  constructor
  · rintro ⟨h₁, h₂, h₃⟩ p hp hmem
    cases p with
    | fifo => cases hp
    | first => exact beq_iff_eq.mpr (h₁ hmem)
    | second => exact beq_iff_eq.mpr (h₂ hmem)
    | third => exact beq_iff_eq.mpr (h₃ hmem)
  · intro h
    exact ⟨fun hmem => beq_iff_eq.mp (h .first rfl hmem),
      fun hmem => beq_iff_eq.mp (h .second rfl hmem),
      fun hmem => beq_iff_eq.mp (h .third rfl hmem)⟩

/-- Only threads of its class may be new in a line. -/
theorem Wf.set (hwf : Wf policy s) {line : List Int}
    (hline : ∀ t ∈ s.threadListHead, t.tid ∈ line →
      t.tid ∈ p.line s ∨ p.takes t.priority = true) :
    Wf policy (p.set line s) := by
  have hb := p.sameBase_set line s
  refine hb.wf hwf fun hpol => ownQueues_iff.mpr fun t ht q hq hmem => ?_
  have hown := ownQueues_iff.mp (hwf.own hpol)
  rw [hb.records] at ht
  rw [Queue.line_set] at hmem
  split at hmem
  case isFalse => exact hown t ht q hq hmem
  case isTrue heq =>
    subst heq
    exact (hline t ht hmem).elim (hown t ht q hq) id

/-- Thread `id` goes to the back of the queue. -/
def Queue.push (p : Queue) (id : Int) (s : Library) : Library :=
  p.set (p.line s ++ [id]) s

theorem Queue.line_push (q p : Queue) (id : Int) (s : Library) :
    q.line (p.push id s) = q.line s ++ if q = p then [id] else [] := by
  unfold Queue.push
  rw [Queue.line_set]
  by_cases h : q = p
  · rw [if_pos h, if_pos h, h]
  · rw [if_neg h, if_neg h, List.append_nil]

theorem Queue.sameBase_push (p : Queue) (id : Int) (s : Library) :
    SameBase s (p.push id s) := p.sameBase_set _ s

/-- The one queue a draw falls to. -/
theorem Queue.of_drawn (hq : q.policy = .priority) {lucky : Int}
    (h : q.drawn lucky = true) :
    q = if lucky < 4 then .third else if lucky < 10 then .second
      else .first := by
  cases q with
  | fifo => cases hq
  | first =>
      have hlucky : 10 ≤ lucky := by simpa [Queue.drawn] using h
      rw [if_neg (by omega), if_neg (by omega)]
  | second =>
      have hlucky : 4 ≤ lucky ∧ lucky < 10 := by simpa [Queue.drawn] using h
      rw [if_neg (by omega), if_pos hlucky.2]
  | third =>
      have hlucky : lucky < 4 := by simpa [Queue.drawn] using h
      rw [if_pos hlucky]

/-- `choose_next_thread_PRI` takes the front of one of its queues, that of
the draw unless it is empty. -/
theorem chooseNextThreadPRI_front (lucky : Int) (s : Library) :
    ((∀ q : Queue, q.policy = .priority → q.line s = [])
        ∧ chooseNextThreadPRI lucky s = (NOT_FOUND, s))
    ∨ ∃ (p : Queue) (x : Int) (rest : List Int), p.policy = .priority
        ∧ p.line s = x :: rest
        ∧ chooseNextThreadPRI lucky s = (x, p.set rest s)
        ∧ ∀ q : Queue, q.policy = .priority → q.drawn lucky = true →
            q.line s ≠ [] → q = p := by
  -- the queue of the draw
  have own (p : Queue) (hp : p = if lucky < 4 then .third
      else if lucky < 10 then .second else .first) :
      ∀ q : Queue, q.policy = .priority → q.drawn lucky = true →
        q.line s ≠ [] → q = p :=
    fun q hq hd _ => (Queue.of_drawn hq hd).trans hp.symm
  -- another one, that of the draw being empty
  have other {p p' : Queue} (hp : p = if lucky < 4 then .third
      else if lucky < 10 then .second else .first) (hempty : p.line s = []) :
      ∀ q : Queue, q.policy = .priority → q.drawn lucky = true →
        q.line s ≠ [] → q = p' :=
    fun q hq hd hne => absurd hempty (own p hp q hq hd hne ▸ hne)
  have empty (h₁ : s.readyQueueFirst = []) (h₂ : s.readyQueueSecond = [])
      (h₃ : s.readyQueueThird = []) (q : Queue) (hq : q.policy = .priority) :
      q.line s = [] := by
    cases q with
    | fifo => cases hq
    | first => exact h₁
    | second => exact h₂
    | third => exact h₃
  unfold chooseNextThreadPRI
  split
  case isTrue hlt =>
    have hp : Queue.third = if lucky < 4 then .third
        else if lucky < 10 then .second else .first := (if_pos hlt).symm
    split
    next h => exact .inr ⟨.third, _, _, rfl, h, rfl, own _ hp⟩
    next h₃ h => exact .inr ⟨.first, _, _, rfl, h, rfl, other hp h₃⟩
    next h₃ h₁ h => exact .inr ⟨.second, _, _, rfl, h, rfl, other hp h₃⟩
    next h₃ h₁ h₂ => exact .inl ⟨empty h₁ h₂ h₃, rfl⟩
  case isFalse hge =>
    split
    case isTrue hlt =>
      have hp : Queue.second = if lucky < 4 then .third
          else if lucky < 10 then .second else .first := by
        rw [if_neg hge, if_pos hlt]
      split
      next h => exact .inr ⟨.second, _, _, rfl, h, rfl, own _ hp⟩
      next h₂ h => exact .inr ⟨.first, _, _, rfl, h, rfl, other hp h₂⟩
      next h₂ h₁ h => exact .inr ⟨.third, _, _, rfl, h, rfl, other hp h₂⟩
      next h₂ h₁ h₃ => exact .inl ⟨empty h₁ h₂ h₃, rfl⟩
    case isFalse hge' =>
      have hp : Queue.first = if lucky < 4 then .third
          else if lucky < 10 then .second else .first := by
        rw [if_neg hge, if_neg hge']
      split
      next h => exact .inr ⟨.first, _, _, rfl, h, rfl, own _ hp⟩
      next h₁ h => exact .inr ⟨.second, _, _, rfl, h, rfl, other hp h₁⟩
      next h₁ h₂ h => exact .inr ⟨.third, _, _, rfl, h, rfl, other hp h₁⟩
      next h₁ h₂ h₃ => exact .inl ⟨empty h₁ h₂ h₃, rfl⟩

/-- The policy's choice takes one thread out of the ready structure, or
finds it empty; it touches nothing else. -/
theorem chooseNext_spec (hwf : Wf policy s) (o : Outside)
    (hids : ∀ x ∈ readyIds s, x ∈ tids s) :
    ∃ r s', chooseNext o s = (r, s')
      ∧ Takes (readyIds s : Multiset Int) r (readyIds s' : Multiset Int)
      ∧ SameBase s s' ∧ Wf policy s' := by
  have hne : ∀ x ∈ readyIds s, found x = some x := fun x hx =>
    found_of_ne (hwf.ne_notFound (hids x hx))
  unfold chooseNext
  cases hp : s.schedulePolicy with
  | fifo =>
      have hown : policy ≠ .priority := by
        rw [← hwf.policy_eq, hp]; decide
      unfold chooseNextThreadFIFO
      cases hq : s.readyFIFO with
      | nil =>
          refine ⟨_, _, rfl, ?_, ⟨rfl, rfl, rfl, rfl, rfl⟩, hwf⟩
          simp only [readyIds, hp, hq]
          exact takes_nil
      | cons x rest =>
          have hb : SameBase s { s with readyFIFO := rest } :=
            ⟨rfl, rfl, rfl, rfl, rfl⟩
          refine ⟨_, _, rfl, ?_, hb, hb.wf hwf fun h => absurd h hown⟩
          rw [hne x (by simp [readyIds, hp, hq])]
          simp only [readyIds, hp, hq]
          exact takes_of_perm (List.Perm.refl _)
  | sjf =>
      have hown : policy ≠ .priority := by
        rw [← hwf.policy_eq, hp]; decide
      rcases chooseNextThreadSJF_cases o.tie s with ⟨hq, hc⟩ | ⟨e, he, -, hc⟩
      · refine ⟨_, _, rfl, ?_, ?_, ?_⟩ <;> rw [hc]
        · simp only [readyIds, hp, hq]
          exact takes_nil
        · exact ⟨rfl, rfl, rfl, rfl, rfl⟩
        · exact hwf
      · have hb : SameBase s { s with readySJF := s.readySJF.erase e } :=
          ⟨rfl, rfl, rfl, rfl, rfl⟩
        refine ⟨_, _, rfl, ?_, ?_, ?_⟩ <;> rw [hc]
        · simp only [readyIds, hp]
          exact takes_of_perm ((List.perm_cons_erase he).map Entry.id)
        · exact hb
        · exact hb.wf hwf fun h => absurd h hown
  | priority =>
      rcases chooseNextThreadPRI_front o.lucky s with
        ⟨hempty, hc⟩ | ⟨p, x, rest, hpri, hline, hc, -⟩
      · refine ⟨_, _, rfl, ?_, ?_, ?_⟩ <;> rw [hc]
        · have h₁ : s.readyQueueFirst = [] := hempty .first rfl
          have h₂ : s.readyQueueSecond = [] := hempty .second rfl
          have h₃ : s.readyQueueThird = [] := hempty .third rfl
          simp only [readyIds, hp, h₁, h₂, h₃]
          exact takes_nil
        · exact ⟨rfl, rfl, rfl, rfl, rfl⟩
        · exact hwf
      · obtain ⟨others, hperm⟩ := Queue.readyIds_set (hp.trans hpri.symm)
        have hall := hperm (p.line s)
        rw [p.set_line, hline] at hall
        refine ⟨_, _, rfl, ?_, ?_, ?_⟩ <;> rw [hc]
        · rw [hne x (hall.mem_iff.mpr List.mem_cons_self)]
          exact takes_of_perm (hall.trans ((hperm rest).symm.cons x))
        · exact p.sameBase_set rest s
        · refine hwf.set fun t _ hmem => .inl ?_
          rw [hline]
          exact List.mem_cons_of_mem x hmem

/-- `id` has been put into the ready structure. -/
structure Pushed (policy : Policy) (s : Library) (id : Int) (s' : Library) :
    Prop where
  base : SameBase s s'
  perm : (readyIds s').Perm (id :: readyIds s)
  wf : Wf policy s'

theorem pushed_sjf (hwf : Wf policy s) (hp : s.schedulePolicy = .sjf)
    (id n : Int) :
    Pushed policy s id { s with readySJF := s.readySJF ++ [⟨id, n⟩] } := by
  have hb : SameBase s { s with readySJF := s.readySJF ++ [⟨id, n⟩] } :=
    ⟨rfl, rfl, rfl, rfl, rfl⟩
  refine ⟨hb, ?_, hb.wf hwf fun h => ?_⟩
  · simp only [readyIds, hp, List.map_append, List.map_singleton]
    exact List.perm_append_singleton id _
  · rw [← hwf.policy_eq, hp] at h
    cases h

/-- Two records of one tid are one record. -/
theorem Wf.record_unique (hwf : Wf policy s) {t' : MyThread}
    (ht : t ∈ s.threadListHead) (ht' : t' ∈ s.threadListHead)
    (h : t'.tid = t.tid) : t' = t :=
  List.inj_on_of_nodup_map hwf.nodup ht' ht h

/-- A thread goes to the back of a queue that takes it. -/
theorem pushed_queue (hwf : Wf policy s) (hp : p.policy = policy)
    (ht : t ∈ s.threadListHead) (htakes : p.takes t.priority = true) :
    Pushed policy s t.tid (p.push t.tid s) := by
  obtain ⟨others, hperm⟩ :=
    Queue.readyIds_set (hwf.policy_eq.trans hp.symm)
  have hall := hperm (p.line s)
  rw [p.set_line] at hall
  refine ⟨p.sameBase_push t.tid s, ?_, hwf.set fun t' ht' hmem => ?_⟩
  · refine (hperm _).trans ?_
    rw [List.append_assoc, List.singleton_append]
    exact List.perm_middle.trans (hall.symm.cons t.tid)
  · refine (List.mem_append.mp hmem).imp_right fun hlast => ?_
    rwa [hwf.record_unique ht ht' (List.mem_singleton.mp hlast)]

/-- A thread goes into the queue of its own priority. -/
theorem pushed_queueFor (hwf : Wf policy s) (hpol : policy ≠ .sjf)
    (ht : t ∈ s.threadListHead) :
    Pushed policy s t.tid ((queueFor policy t.priority).push t.tid s) := by
  have hp : (queueFor policy t.priority).policy = policy :=
    queueFor_policy hpol t.priority
  exact pushed_queue hwf hp ht
    ((takes_iff hp (hwf.priority t ht)).mpr rfl)

/-- The choice of the queue as the source spells it. -/
theorem queueFor_push (n id : Int) (s : Library) :
    (queueFor .priority n).push id s
      = if n = FIRST - 1 then
          { s with readyQueueFirst := s.readyQueueFirst ++ [id] }
        else if n = SECOND - 1 then
          { s with readyQueueSecond := s.readyQueueSecond ++ [id] }
        else { s with readyQueueThird := s.readyQueueThird ++ [id] } := by
  unfold queueFor
  dsimp only
  split
  case isTrue => rfl
  case isFalse =>
    split
    case isTrue => rfl
    case isFalse => rfl

theorem wake_eq (hwf : Wf policy s) (hpol : policy ≠ .sjf)
    (hfind : findByTid s id = some t) :
    wake s id = some ((queueFor policy t.priority).push id s) := by
  unfold wake
  split
  next hp =>
    obtain rfl : policy = .fifo := hwf.policy_eq.symm.trans hp
    rfl
  next hp => exact absurd (hwf.policy_eq.symm.trans hp) hpol
  next hp =>
    obtain rfl : policy = .priority := hwf.policy_eq.symm.trans hp
    rw [hfind, queueFor_push]
    dsimp only
    rw [apply_ite some, apply_ite some]

/-- A thread of a suspended queue can be woken. -/
theorem wake_spec (hwf : Wf policy s) (hid : id ∈ tids s) :
    ∃ s', wake s id = some s' ∧ Pushed policy s id s' := by
  obtain ⟨t, ht⟩ := findByTid_of_mem_tids hid
  obtain ⟨hmem, rfl⟩ := findByTid_some ht
  by_cases hpol : policy = .sjf
  · have hp : s.schedulePolicy = .sjf := hwf.policy_eq.trans hpol
    refine ⟨_, ?_, pushed_sjf hwf hp t.tid (truncate t.estimatedRuntime)⟩
    rw [wake, hp]
    dsimp only
    rw [ht]
  · exact ⟨_, wake_eq hwf hpol ht, pushed_queueFor hwf hpol hmem⟩

theorem SameBase.tids_eq (h : SameBase s s') : tids s' = tids s := by
  unfold tids
  rw [h.records]

/-- A whole suspended queue can be woken. -/
theorem wakeAll_spec : ∀ (ids : List Int) {s : Library}, Wf policy s →
    (∀ id ∈ ids, id ∈ tids s) →
    ∃ s', wakeAll ids s = some s' ∧ SameBase s s' ∧ Wf policy s'
      ∧ (readyIds s').Perm (ids ++ readyIds s) := by
  intro ids
  induction ids with
  | nil =>
      intro s hwf _
      exact ⟨s, rfl, ⟨rfl, rfl, rfl, rfl, rfl⟩, hwf, List.Perm.refl _⟩
  | cons id rest ih =>
      intro s hwf hids
      obtain ⟨s₁, hw, hpush⟩ := wake_spec hwf (hids id List.mem_cons_self)
      obtain ⟨s₂, hw₂, hb₂, hwf₂, hperm₂⟩ := ih hpush.wf fun x hx =>
        hpush.base.tids_eq ▸ hids x (List.mem_cons_of_mem id hx)
      refine ⟨s₂, by rw [wakeAll, hw]; exact hw₂, hpush.base.trans hb₂,
        hwf₂, ?_⟩
      exact (hperm₂.trans (hpush.perm.append_left rest)).trans List.perm_middle

end OperatingSystem.Thread
