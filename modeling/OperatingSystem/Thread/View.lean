/-
The library's state, seen as a pool of tasks: tids are the task names,
`current_active` runs, the policy's ready structure (three queues under
PRIORITY) is the ready multiset, `suspended_queue`s are the waiting sets
and FINISHED threads are done.

`SameTasks` is the frame condition of this view: what a step does to
records and queues without moving a task. Everything `my_scheduler` does
besides moving tasks — clearing `active`, measuring bursts, logging —
falls under it.
-/
import OperatingSystem.Thread.Basic
import OperatingSystem.Lib.TaskPool

namespace OperatingSystem.Thread

-- ============================================================= the view

/-- The tids of all records. -/
def tids (s : Library) : List Int := s.threadListHead.map MyThread.tid

/-- Everything in the policy's ready structure. -/
def readyIds (s : Library) : List Int :=
  match s.schedulePolicy with
  | .fifo => s.readyFIFO
  | .sjf => s.readySJF.map Entry.id
  | .priority =>
      s.readyQueueFirst ++ (s.readyQueueSecond ++ s.readyQueueThird)

/-- The `suspended_queue` of thread `u`. -/
def suspendedOf (s : Library) (u : Int) : List Int :=
  match findByTid s u with
  | some t => t.suspendedQueue
  | none => []

/-- Thread `u` is FINISHED. -/
def Finished (s : Library) (u : Int) : Prop :=
  ∃ t, findByTid s u = some t ∧ t.status = .finished

/-- The pool the library schedules. -/
def view (s : Library) : Lib.Pool Int where
  all := (tids s).toFinset
  done := Finished s
  running := s.currentActive
  ready := (readyIds s : Multiset Int)
  waiters := fun u => (suspendedOf s u : Multiset Int)

/-- Under PRIORITY a ready thread is in the queue of its own priority. -/
def OwnQueues (s : Library) : Prop :=
  ∀ t ∈ s.threadListHead,
    (t.tid ∈ s.readyQueueFirst → t.priority = FIRST - 1)
    ∧ (t.tid ∈ s.readyQueueSecond → t.priority = SECOND - 1)
    ∧ (t.tid ∈ s.readyQueueThird → t.priority = THIRD - 1)

/-- A priority `thread_create` accepts. -/
def ValidPriority (n : Int) : Prop :=
  n = FIRST - 1 ∨ n = SECOND - 1 ∨ n = THIRD - 1

instance (n : Int) : Decidable (ValidPriority n) :=
  inferInstanceAs (Decidable (_ ∨ _))

/-- What the library promises about its records under `policy`. -/
structure Wf (policy : Policy) (s : Library) : Prop where
  initialized : s.initialized = true
  policy_eq : s.schedulePolicy = policy
  nodup : (tids s).Nodup
  range : ∀ u ∈ tids s, 0 < u ∧ u ≤ s.threadCount
  count : 0 ≤ s.threadCount
  priority : ∀ t ∈ s.threadListHead, ValidPriority t.priority
  own : policy = .priority → OwnQueues s

-- =========================================================== the records

variable {s s' s'' : Library} {policy : Policy} {u tid : Int}
  {f : MyThread → MyThread} {t : MyThread}

theorem findByTid_some (h : findByTid s u = some t) :
    t ∈ s.threadListHead ∧ t.tid = u := by
  refine ⟨List.mem_of_find?_eq_some h, ?_⟩
  have := List.find?_some h
  simpa using this

theorem findByTid_of_mem_tids (h : u ∈ tids s) :
    ∃ t, findByTid s u = some t := by
  obtain ⟨t, ht, rfl⟩ := List.mem_map.mp h
  cases hf : findByTid s t.tid with
  | some t' => exact ⟨t', rfl⟩
  | none =>
      have := List.find?_eq_none.mp hf t ht
      simp at this

theorem mem_tids_of_findByTid (h : findByTid s u = some t) : u ∈ tids s := by
  obtain ⟨hmem, rfl⟩ := findByTid_some h
  exact List.mem_map_of_mem hmem

/-- With distinct tids a record is found under its own. -/
theorem findByTid_of_mem (hnd : (tids s).Nodup) (ht : t ∈ s.threadListHead) :
    findByTid s t.tid = some t := by
  obtain ⟨t', ht'⟩ := findByTid_of_mem_tids (List.mem_map_of_mem ht)
  obtain ⟨hmem, htid⟩ := findByTid_some ht'
  rw [ht', List.inj_on_of_nodup_map hnd hmem ht htid]

/-- A write through a pointer moves no record. -/
theorem tids_onThread (hf : ∀ t, (f t).tid = t.tid) :
    tids (s.onThread tid f) = tids s := by
  unfold tids Library.onThread
  rw [List.map_map]
  refine List.map_congr_left fun t _ => ?_
  simp only [Function.comp_apply]
  split
  case isTrue => exact hf t
  case isFalse => rfl

/-- A write through a pointer is seen through that pointer and no
other. -/
theorem findByTid_onThread (hf : ∀ t, (f t).tid = t.tid) :
    findByTid (s.onThread tid f) u
      = if u = tid then (findByTid s u).map f else findByTid s u := by
  have hkey : ((fun t : MyThread => t.tid == u)
      ∘ fun t => if t.tid = tid then f t else t) = fun t => t.tid == u := by
    funext t
    simp only [Function.comp_apply]
    split
    case isTrue => rw [hf]
    case isFalse => rfl
  unfold findByTid Library.onThread
  rw [List.find?_map, hkey]
  cases hfind : s.threadListHead.find? fun t => t.tid == u with
  | none => simp
  | some t =>
      have htid : t.tid = u := by simpa using List.find?_some hfind
      simp only [Option.map_some, htid]
      split <;> rfl

-- ====================================================== the frame condition

/-- The same tasks, in the same waiting sets, done or not. -/
structure SameTasks (s s' : Library) : Prop where
  tids_eq : tids s' = tids s
  finished : ∀ u, Finished s' u ↔ Finished s u
  suspended : ∀ u, suspendedOf s' u = suspendedOf s u

theorem SameTasks.trans (h : SameTasks s s') (h' : SameTasks s' s'') :
    SameTasks s s'' where
  tids_eq := h'.tids_eq.trans h.tids_eq
  finished u := (h'.finished u).trans (h.finished u)
  suspended u := (h'.suspended u).trans (h.suspended u)

/-- The view of a state with the same tasks. -/
theorem SameTasks.view_eq (h : SameTasks s s') :
    view s' = { view s with
      running := s'.currentActive, ready := (readyIds s' : Multiset Int) } := by
  unfold view
  rw [h.tids_eq, funext h.suspended,
    show Finished s' = Finished s from funext fun u => propext (h.finished u)]

/-- The records alone decide the tasks. -/
theorem SameTasks.of_records (h : s'.threadListHead = s.threadListHead) :
    SameTasks s s' := by
  have hfind : ∀ u, findByTid s' u = findByTid s u := fun u => by
    unfold findByTid
    rw [h]
  exact ⟨by unfold tids; rw [h],
    fun u => by unfold Finished; rw [hfind],
    fun u => by unfold suspendedOf; rw [hfind]⟩

/-- A write that keeps a record's identity, its suspended queue and
whether it is FINISHED. -/
theorem SameTasks.onThread (hf : ∀ t, (f t).tid = t.tid)
    (hq : ∀ t, (f t).suspendedQueue = t.suspendedQueue)
    (hst : ∀ t, findByTid s tid = some t →
      ((f t).status = .finished ↔ t.status = .finished)) :
    SameTasks s (s.onThread tid f) where
  tids_eq := tids_onThread hf
  finished u := by
    unfold Finished
    rw [findByTid_onThread hf]
    by_cases hu : u = tid
    · subst hu
      rw [if_pos rfl]
      cases hfind : findByTid s u with
      | none => simp
      | some t => simp [hst t hfind]
    · rw [if_neg hu]
  suspended u := by
    unfold suspendedOf
    rw [findByTid_onThread hf]
    by_cases hu : u = tid
    · rw [if_pos hu]
      cases findByTid s u with
      | none => rfl
      | some t => exact hq t
    · rw [if_neg hu]

/-- Well-formedness survives a write that keeps identity and priority. -/
theorem Wf.onThread (h : Wf policy s) (hf : ∀ t, (f t).tid = t.tid)
    (hp : ∀ t, (f t).priority = t.priority) :
    Wf policy (s.onThread tid f) := by
  have hmem : ∀ t' ∈ (s.onThread tid f).threadListHead,
      ∃ t ∈ s.threadListHead, t'.tid = t.tid ∧ t'.priority = t.priority := by
    intro t' ht'
    obtain ⟨t, ht, rfl⟩ := List.mem_map.mp ht'
    refine ⟨t, ht, ?_⟩
    split
    case isTrue => exact ⟨hf t, hp t⟩
    case isFalse => exact ⟨rfl, rfl⟩
  refine ⟨h.initialized, h.policy_eq, ?_, ?_, h.count, ?_, fun hpol => ?_⟩
  · rw [tids_onThread hf]
    exact h.nodup
  · rw [tids_onThread hf]
    exact h.range
  · intro t' ht'
    obtain ⟨t, ht, -, heq⟩ := hmem t' ht'
    exact heq ▸ h.priority t ht
  · intro t' ht'
    obtain ⟨t, ht, htid, heq⟩ := hmem t' ht'
    rw [htid, heq]
    exact h.own hpol t ht

@[simp] theorem readyIds_onThread : readyIds (s.onThread tid f) = readyIds s :=
  rfl

@[simp] theorem onThread_currentActive :
    (s.onThread tid f).currentActive = s.currentActive := rfl

@[simp] theorem onThread_schedulePolicy :
    (s.onThread tid f).schedulePolicy = s.schedulePolicy := rfl

@[simp] theorem readyIds_log (e : Event) : readyIds (s.log e t) = readyIds s :=
  rfl

@[simp] theorem findByTid_log (e : Event) :
    findByTid (s.log e t) u = findByTid s u := rfl

@[simp] theorem log_currentActive (e : Event) :
    (s.log e t).currentActive = s.currentActive := rfl

@[simp] theorem log_schedulePolicy (e : Event) :
    (s.log e t).schedulePolicy = s.schedulePolicy := rfl

theorem Wf.log (h : Wf policy s) (e : Event) : Wf policy (s.log e t) :=
  ⟨h.initialized, h.policy_eq, h.nodup, h.range, h.count, h.priority, h.own⟩

/-- Under SJF the ready threads are those with an entry. -/
theorem readyIds_sjf (hpol : s.schedulePolicy = .sjf) :
    readyIds s = s.readySJF.map Entry.id := by
  unfold readyIds
  rw [hpol]

/-- A found thread's tid is never the `NOT_FOUND` of the ready queues. -/
theorem Wf.ne_notFound (h : Wf policy s) (hu : u ∈ tids s) :
    u ≠ NOT_FOUND := by
  have := (h.range u hu).1
  unfold NOT_FOUND
  omega

end OperatingSystem.Thread
