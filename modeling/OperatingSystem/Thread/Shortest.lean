/-
Shortest job first: when is the thread `my_scheduler` takes really one with
the least estimate?

An entry of `ready_SJF` carries a copy of its thread's estimate, made when
the entry is pushed. Two of the three places that push take the copy from
the record; `thread_create` writes `QUANTA / 2`, whatever
`average_time_so_far` has put into the record. A waiting thread is measured
by nobody, so these are the only keys that can be wrong (`Keyed`): exactly
the threads that have never run stand at `QUANTA / 2`.

What follows for a choice is `choice_is_shortest_iff`: whichever of the
minimal entries is on top, the choice is a shortest job exactly if
`QUANTA / 2` puts the threads that have never run where their estimates
would.
-/
import OperatingSystem.Thread.Sjf

namespace OperatingSystem.Thread

open Lib (Move Reach)

variable {b : Build} {o : Outside} {s s' : Library} {c : Call}
  {out : Outcome} {id x : Int} {e : Entry} {why : Reason} {policy : Policy}

-- ========================================================== the statements

/-- The threads in `ready_SJF` when `my_scheduler` chooses. -/
def waiting (why : Reason) (s : Library) : List Int :=
  (queueAtChoice why s).map Entry.id

/-- The estimate of thread `id`, as an `int`. -/
def jobOf (s : Library) (id : Int) : Int := truncate (estimateOf s id)

/-- If a thread is dispatched, no other thread waiting at that moment has a
smaller estimate. -/
def Shortest (why : Reason) (s s' : Library) : Prop :=
  ∀ id, s'.currentActive = some id → ∀ x ∈ waiting why s,
    jobOf s' id ≤ jobOf s' x

/-- The call enters `my_scheduler`. -/
def Enters (s : Library) : Reason → Prop
  | .yield => True
  | .join tid => tid ∈ tids s
  | .ret => s.currentActive ≠ none

/-- `QUANTA / 2` ranks the threads that have never run as their estimates
do: in front of everybody when nobody who has run estimates less than it,
and behind the first of those who have run otherwise. -/
structure Ranked (why : Reason) (s : Library) : Prop where
  front : (∀ z ∈ waiting why s, ¬Fresh s z → QUANTA / 2 ≤ jobOf s z) →
    ∀ x ∈ waiting why s, Fresh s x → ∀ y ∈ waiting why s,
      jobOf s x ≤ jobOf s y
  behind : ∀ y ∈ waiting why s, ¬Fresh s y → jobOf s y ≤ QUANTA / 2 →
    (∀ z ∈ waiting why s, ¬Fresh s z → jobOf s y ≤ jobOf s z) →
    ∀ x ∈ waiting why s, Fresh s x → jobOf s y ≤ jobOf s x

/-- What the keys of `ready_SJF` are. -/
structure Keyed (s : Library) : Prop where
  fresh : ∀ e ∈ s.readySJF, Fresh s e.id → e.priority = QUANTA / 2
  ran : ∀ e ∈ s.readySJF, ¬Fresh s e.id → e.priority = jobOf s e.id
  suspended : ∀ u, ∀ x ∈ suspendedOf s u, ¬Fresh s x

-- ==================================================== what a choice changes

theorem Chosen.find_eq (h : Chosen b o why s s') (id : Int) :
    ∃ g : MyThread → MyThread, findByTid s' id = (findByTid s id).map g
      ∧ ∀ t, After b o why s s' t (g t) := by
  obtain ⟨g, hg, hR⟩ := h.records
  exact ⟨g, findByTid_map (fun t => (hR t).tid) hg id, hR⟩

/-- Only the caller and the thread taken stop being new. -/
theorem Chosen.fresh_iff (h : Chosen b o why s s') (id : Int) :
    Fresh s' id ↔ Fresh s id ∧ s.currentActive ≠ some id
      ∧ s'.currentActive ≠ some id := by
  obtain ⟨g, hg, hR⟩ := h.find_eq id
  unfold Fresh
  rw [hg]
  cases hfind : findByTid s id with
  | none => simp
  | some t =>
      obtain ⟨-, rfl⟩ := findByTid_some hfind
      simp [(hR t).created]

/-- Only the caller's estimate changes. -/
theorem Chosen.jobOf_eq (h : Chosen b o why s s')
    (hid : s.currentActive ≠ some id) : jobOf s' id = jobOf s id := by
  obtain ⟨g, hg, hR⟩ := h.find_eq id
  have hmeasured : why.measured s ≠ some id := by
    cases why with
    | ret => nofun
    | yield | join => exact hid
  unfold jobOf estimateOf
  rw [hg]
  cases hfind : findByTid s id with
  | none => rfl
  | some t =>
      obtain ⟨-, rfl⟩ := findByTid_some hfind
      have htiming := (hR t).timing
      rw [if_neg hmeasured] at htiming
      exact congrArg truncate (congrArg Timing.estimatedRuntime htiming)

-- ======================================================= the queue's keys

theorem mem_readyIds_of_entry (hpol : s.schedulePolicy = .sjf)
    (he : e ∈ s.readySJF) : e.id ∈ readyIds s := by
  rw [readyIds_sjf hpol]
  exact List.mem_map_of_mem he

/-- Nobody in the queue runs. -/
theorem entry_ne_current (h : Placed policy s) (hpol : s.schedulePolicy = .sjf)
    (he : e ∈ s.readySJF) : s.currentActive ≠ some e.id := fun hcur =>
  (h.inv.nowhere_else hcur).1
    (Multiset.mem_coe.mpr (mem_readyIds_of_entry hpol he))

/-- What is in the queue at the choice. -/
theorem Keyed.queue (hK : Keyed s) (h : Placed policy s)
    (hpol : s.schedulePolicy = .sjf) (he : e ∈ queueAtChoice why s) :
    (Fresh s e.id → e.priority = QUANTA / 2)
      ∧ (¬Fresh s e.id → e.priority = jobOf s e.id)
      ∧ s.currentActive ≠ some e.id := by
  unfold queueAtChoice at he
  split at he
  next me hcur =>
    rcases List.mem_append.mp he with he | he
    · exact ⟨hK.fresh e he, hK.ran e he, entry_ne_current h hpol he⟩
    · obtain ⟨x, hx, rfl⟩ := List.mem_map.mp he
      refine ⟨fun hf => absurd hf (hK.suspended me x hx), fun _ => rfl, ?_⟩
      rw [hcur]
      rintro hme
      obtain rfl := Option.some.inj hme
      exact (h.inv.nowhere_else hcur).2 _ (Multiset.mem_coe.mpr hx)
  next => exact ⟨hK.fresh e he, hK.ran e he, entry_ne_current h hpol he⟩

/-- A choice keeps the keys. -/
theorem Keyed.chosen (hK : Keyed s) (h : Placed .sjf s) (h' : Placed .sjf s')
    (hwaits : ∀ u, ∀ x ∈ suspendedOf s' u,
      x ∈ suspendedOf s u ∨ s.currentActive = some x)
    (hch : Chosen b o why s s') : Keyed s' := by
  constructor
  case fresh =>
    intro e he hf
    obtain ⟨hfresh, hcur, -⟩ := (hch.fresh_iff e.id).mp hf
    rcases hch.ready e he with hq | ⟨hme, -⟩
    · exact (hK.queue h h.wf.policy_eq hq).1 hfresh
    · exact absurd hme hcur
  case ran =>
    intro e he hf
    rcases hch.ready e he with hq | ⟨-, heq⟩
    · obtain ⟨-, hran, hcur⟩ := hK.queue h h.wf.policy_eq hq
      rw [hch.jobOf_eq hcur]
      refine hran fun hfresh => hf ?_
      have hcur' := entry_ne_current h' h'.wf.policy_eq he
      exact (hch.fresh_iff e.id).mpr ⟨hfresh, hcur, hcur'⟩
    · exact congrArg Entry.priority heq
  case suspended =>
    intro u x hx hf
    obtain ⟨hfresh, hcur, -⟩ := (hch.fresh_iff x).mp hf
    rcases hwaits u x hx with hx | hme
    · exact hK.suspended u x hx hfresh
    · exact hcur hme

-- ========================================================== thread_create

/-- Records are found where they were after an append. -/
theorem findByTid_createdSjf (hwf : Wf policy s) (n id : Int) :
    findByTid (createdSjf n s) id = if id = s.threadCount + 1
      then some (newThread n (averageTimeSoFar
        { s with threadCount := s.threadCount + 1 }) (s.threadCount + 1))
      else findByTid s id := by
  have hnone : findByTid s (s.threadCount + 1) = none := by
    cases h : findByTid s (s.threadCount + 1) with
    | none => rfl
    | some t =>
        have := (hwf.range _ (mem_tids_of_findByTid h)).2
        omega
  unfold findByTid at hnone ⊢
  unfold createdSjf
  dsimp only
  rw [List.find?_append]
  split
  case isTrue h =>
    rw [h, hnone]
    simp [newThread]
  case isFalse h =>
    simp [newThread, Ne.symm h]

/-- A new thread stands at `QUANTA / 2`. -/
theorem Keyed.created (hK : Keyed s) (h : Placed .sjf s) (n : Int) :
    Keyed (createdSjf n s) := by
  have hold : ∀ id ∈ tids s,
      findByTid (createdSjf n s) id = findByTid s id := by
    intro id hid
    rw [findByTid_createdSjf h.wf, if_neg]
    have := (h.wf.range id hid).2
    omega
  have hfresh : ∀ id ∈ tids s, (Fresh (createdSjf n s) id ↔ Fresh s id) :=
    fun id hid => by
      unfold Fresh
      rw [hold id hid]
  have hjob : ∀ id ∈ tids s, jobOf (createdSjf n s) id = jobOf s id :=
    fun id hid => by
      unfold jobOf estimateOf
      rw [hold id hid]
  have hknown : ∀ e ∈ s.readySJF, e.id ∈ tids s := by
    intro e he
    exact ready_known h.inv _ (mem_readyIds_of_entry h.wf.policy_eq he)
  have hnew : Fresh (createdSjf n s) (s.threadCount + 1) := by
    unfold Fresh
    rw [findByTid_createdSjf h.wf, if_pos rfl]
    exact ⟨_, rfl, rfl⟩
  constructor
  case fresh =>
    intro e he hf
    rcases List.mem_append.mp he with he | he
    · exact hK.fresh e he ((hfresh _ (hknown e he)).mp hf)
    · rw [List.mem_singleton.mp he]
  case ran =>
    intro e he hf
    rcases List.mem_append.mp he with he | he
    · rw [hjob _ (hknown e he)]
      exact hK.ran e he fun hs => hf ((hfresh _ (hknown e he)).mpr hs)
    · rw [List.mem_singleton.mp he] at hf
      exact absurd hnew hf
  case suspended =>
    intro u x hx hf
    have hx' : x ∈ suspendedOf s u := by
      unfold suspendedOf at hx ⊢
      rw [findByTid_createdSjf h.wf] at hx
      by_cases hu : u = s.threadCount + 1
      · rw [if_pos hu] at hx
        exact absurd hx List.not_mem_nil
      · rwa [if_neg hu] at hx
    exact hK.suspended u x hx'
      ((hfresh x (suspended_known h.inv u x hx')).mp hf)

-- =============================================================== a whole run

theorem Keyed.step (hK : Keyed s) (h : Placed .sjf s)
    (hst : (system b .sjf).step c s = some s') : Keyed s' := by
  obtain ⟨h', hview⟩ := h.step hst
  obtain ⟨⟨out, t⟩, hcall, rfl⟩ := Option.map_eq_some_iff.mp hst
  have hwaits : ∀ u, ∀ x ∈ suspendedOf t u,
      x ∈ suspendedOf s u ∨ s.currentActive = some x := by
    intro u x hx
    have hx : (view t).Waits x u := Multiset.mem_coe.mpr hx
    rcases hview with hv | ⟨w, hm⟩
    · rw [show view t = view s from hv] at hx
      exact .inl (Multiset.mem_coe.mp hx)
    · exact (hm.waits hx).imp_left Multiset.mem_coe.mp
  rcases call_sjf h.wf.policy_eq hcall with
    ⟨-, rfl | rfl | ⟨n, -, -, rfl⟩⟩ | ⟨o, why, -, -, hch⟩
  · exact hK
  · exact ⟨hK.fresh, hK.ran, hK.suspended⟩
  · exact hK.created h n
  · exact hK.chosen h h' hwaits hch

theorem keyed_of_reach (h : Reach (system b .sjf) Lib.Anything s) :
    Placed .sjf s ∧ Keyed s := by
  refine h.invariant (I := fun t => Placed .sjf t ∧ Keyed t) ?_ ?_
  · rintro t rfl
    refine ⟨placed_libinit .sjf, ?_⟩
    exact ⟨fun _ he => absurd he List.not_mem_nil,
      fun _ he => absurd he List.not_mem_nil,
      fun _ _ hx => absurd hx List.not_mem_nil⟩
  · rintro c t t' ⟨ht, hK⟩ - hst
    exact ⟨(ht.step hst).1, hK.step ht hst⟩

-- ==================================================== the main theorem

/-- A call that can enter `my_scheduler` does, whatever the outside
answers. -/
theorem call_of_enters (h : Placed policy s) (b : Build) (o : Outside)
    (he : Enters s why) :
    ∃ s', call b (why.call o) s = some (.switched, s') := by
  have hinit : ¬s.initialized = false := by
    rw [h.wf.initialized]
    decide
  have hmain (hcur : s.currentActive = none) :
      ∃ s', mainGivesUp b o s = some (.switched, s') := by
    obtain ⟨s', -, hs, -⟩ := mainGivesUp_move (b := b) (o := o) h.wf h.inv hcur
    exact ⟨s', hs⟩
  cases why with
  | yield =>
      rw [Reason.call, call, threadYield, if_neg hinit]
      cases hcur : s.currentActive with
      | none => exact hmain hcur
      | some me =>
          obtain ⟨s', -, hs, -⟩ :=
            giveUp_yield (b := b) (o := o) h.wf h.inv hcur
          exact ⟨s', hs⟩
  | join tid =>
      obtain ⟨t, ht⟩ := findByTid_of_mem_tids he
      rw [Reason.call, call, threadJoin, if_neg hinit, ht]
      cases hcur : s.currentActive with
      | none => exact hmain hcur
      | some me =>
          obtain ⟨s', -, hs, -⟩ :=
            giveUp_join (b := b) (o := o) h.wf h.inv hcur he
          exact ⟨s', hs⟩
  | ret =>
      obtain ⟨me, hcur⟩ := Option.ne_none_iff_exists'.mp he
      rw [Reason.call, call, threadReturn, hcur]
      obtain ⟨s', -, hs, -⟩ :=
        giveUp_finished (b := b) (o := o) h.wf h.inv hcur
      exact ⟨s', hs⟩

/-- Any entry no other precedes is dispatched if the outside has it on
top. -/
theorem dispatched_of_minimal (h : Placed .sjf s) (b : Build)
    (hen : Enters s why) (he : e ∈ queueAtChoice why s)
    (hmin : ∀ x ∈ queueAtChoice why s, e.priority ≤ x.priority) :
    ∃ o s', call b (why.call o) s = some (.switched, s')
      ∧ Chosen b o why s s' ∧ s'.currentActive = some e.id := by
  obtain ⟨tie, htop⟩ := exists_top he hmin
  obtain ⟨s', hcall⟩ := call_of_enters h b ⟨0, 0, 0, tie⟩ hen
  have hch := chosen_of_call h.wf.policy_eq hcall
  refine ⟨_, s', hcall, hch, ?_⟩
  rw [hch.current, htop]
  rfl

/-- Under SJF, in every reachable state and for every way of entering
`my_scheduler`: whatever the outside answers, the thread dispatched is one
with the least estimate exactly if `QUANTA / 2` ranks the threads that
have never run as their estimates do. -/
theorem choice_is_shortest_iff (h : Reach (system b .sjf) Lib.Anything s)
    (hen : Enters s why) :
    (∀ o s', call b (why.call o) s = some (.switched, s') →
        Shortest why s s')
      ↔ Ranked why s := by
  obtain ⟨hp, hK⟩ := keyed_of_reach h
  have key {e : Entry} (he : e ∈ queueAtChoice why s) :=
    hK.queue hp hp.wf.policy_eq he
  constructor
  · intro hall
    -- the dispatched thread against anybody waiting, in the state before
    have least {e y : Entry} (he : e ∈ queueAtChoice why s)
        (hmin : ∀ x ∈ queueAtChoice why s, e.priority ≤ x.priority)
        (hy : y ∈ queueAtChoice why s) : jobOf s e.id ≤ jobOf s y.id := by
      obtain ⟨o, s', hcall, hch, hcur⟩ := dispatched_of_minimal hp b hen he hmin
      have hle := hall o s' hcall e.id hcur y.id (List.mem_map_of_mem hy)
      rwa [hch.jobOf_eq (key he).2.2, hch.jobOf_eq (key hy).2.2] at hle
    constructor
    case front =>
      intro hran x hx hf y hy
      obtain ⟨e, he, rfl⟩ := List.mem_map.mp hx
      obtain ⟨e', he', rfl⟩ := List.mem_map.mp hy
      refine least he (fun z hz => ?_) he'
      rw [(key he).1 hf]
      by_cases hz' : Fresh s z.id
      · rw [(key hz).1 hz']
      · rw [(key hz).2.1 hz']
        exact hran z.id (List.mem_map_of_mem hz) hz'
    case behind =>
      intro y hy hrun hle hmin x hx _
      obtain ⟨e, he, rfl⟩ := List.mem_map.mp hy
      obtain ⟨e', he', rfl⟩ := List.mem_map.mp hx
      refine least he (fun z hz => ?_) he'
      rw [(key he).2.1 hrun]
      by_cases hz' : Fresh s z.id
      · rw [(key hz).1 hz']
        exact hle
      · rw [(key hz).2.1 hz']
        exact hmin z.id (List.mem_map_of_mem hz) hz'
  · intro hR o s' hcall id hcur y hy
    have hch := chosen_of_call hp.wf.policy_eq hcall
    rw [hch.current] at hcur
    obtain ⟨e, htop, rfl⟩ := Option.map_eq_some_iff.mp hcur
    obtain ⟨he, hmin⟩ := top_spec htop
    obtain ⟨e', he', rfl⟩ := List.mem_map.mp hy
    rw [hch.jobOf_eq (key he).2.2, hch.jobOf_eq (key he').2.2]
    have hran : ∀ z ∈ waiting why s, ¬Fresh s z → e.priority ≤ jobOf s z := by
      intro z hz hf
      obtain ⟨x, hx, rfl⟩ := List.mem_map.mp hz
      rw [← (key hx).2.1 hf]
      exact hmin x hx
    by_cases hf : Fresh s e.id
    · rw [(key he).1 hf] at hran
      exact hR.front hran e.id (List.mem_map_of_mem he) hf e'.id hy
    · rw [(key he).2.1 hf] at hran
      by_cases hf' : Fresh s e'.id
      · refine hR.behind e.id (List.mem_map_of_mem he) hf ?_ hran e'.id hy hf'
        rw [← (key he).2.1 hf, ← (key he').1 hf']
        exact hmin e' he'
      · exact hran e'.id hy hf'

/-- It does so where each of these threads estimates `QUANTA / 2`. -/
theorem ranked_of_quanta
    (h : ∀ x ∈ waiting why s, Fresh s x → jobOf s x = QUANTA / 2) :
    Ranked why s where
  front hran x hx hf y hy := by
    rw [h x hx hf]
    by_cases hy' : Fresh s y
    · rw [h y hy hy']
    · exact hran y hy hy'
  behind y _ _ hle _ x hx hf := by
    rw [h x hx hf]
    exact hle

instance (s : Library) (id : Int) : Decidable (Fresh s id) :=
  decidable_of_iff (∃ t ∈ findByTid s id, t.status = .created) <| by
    simp [Fresh]

/-- Thread 1 has run for 200 ms and estimates 125; thread 3 has just been
created with the average, 50. Thread 2 yields, and thread 3 is dispatched. -/
theorem choice_is_shortest_two : ∃ s s',
    Lib.run (system .aging .sjf) [.create true true 0, .create true true 0,
        .yield ⟨0, 0, 0, 0⟩, .yield ⟨200, 200, 0, 0⟩, .create true true 0]
        (libinit .sjf) = some s
      ∧ waiting .yield s = [1, 3]
      ∧ ¬Fresh s 1 ∧ jobOf s 1 = 125 ∧ Fresh s 3 ∧ jobOf s 3 = 50
      ∧ call .aging (.yield ⟨210, 210, 0, 0⟩) s = some (.switched, s')
      ∧ s'.currentActive = some 3 ∧ Shortest .yield s s' := by
  let s := (Lib.run (system .aging .sjf) [.create true true 0,
    .create true true 0, .yield ⟨0, 0, 0, 0⟩, .yield ⟨200, 200, 0, 0⟩,
    .create true true 0] (libinit .sjf)).get (by decide +kernel)
  let r := (call .aging (.yield ⟨210, 210, 0, 0⟩) s).get (by decide +kernel)
  have hs : Reach (system .aging .sjf) Lib.Anything s :=
    Lib.reach_of_run _ rfl (Option.some_get _).symm
  have hyield : Enters s .yield := trivial
  have hranked : Ranked .yield s := ranked_of_quanta (by decide +kernel)
  have hcall : call .aging (.yield ⟨210, 210, 0, 0⟩) s = some (.switched, r.2) := by
    decide +kernel
  have hshortest := (choice_is_shortest_iff hs hyield).mpr hranked _ r.2 hcall
  refine ⟨s, r.2, (Option.some_get _).symm, ?_, ?_, ?_, ?_, ?_, hcall, ?_,
    hshortest⟩ <;> decide +kernel

/-- Two threads have just been created. The second one's estimate is 25,
its key 50; main yields, and the first one runs with its estimate of 50. -/
theorem longer_job_first : ∃ s s', Reach (system .plain .sjf) Lib.Anything s
    ∧ call .plain (.yield zero) s = some (.switched, s')
    ∧ ¬Shortest .yield s s' := by
  let s := (Lib.run (system .plain .sjf)
    [.create true true 0, .create true true 0] (libinit .sjf)).get
    (by decide +kernel)
  let s' := ((system .plain .sjf).step (.yield zero) s).get (by decide +kernel)
  have hs : Reach (system .plain .sjf) Lib.Anything s :=
    Lib.reach_of_run _ rfl (Option.some_get _).symm
  refine ⟨s, s', hs, by decide +kernel, fun hno => ?_⟩
  have hle := hno 1 (by decide +kernel) 2 (by decide +kernel)
  revert hle
  decide +kernel

end OperatingSystem.Thread
