/-
`log_file` is a faithful account of the library.

`replay` reads the log line by line and refuses a line that makes no sense
after the ones before it: a tid not above all earlier ones, a SCHEDULED line
while somebody runs or for a thread that is FINISHED or unknown, a STOPPED
or FINISHED line of somebody who does not run, a priority that is not the
one the thread was created with. Under every policy and whatever the callers
do, the log replays, and what it says is what the library holds
(`log_replays`): who was created and with which priority, who runs, and who
is FINISHED.

# The shape of the argument

A call writes at most two lines, the caller's and that of the thread chosen.
Between the two the account agrees with the library as it would be if
`my_scheduler` left for main, so one lemma about each kind of line
suffices.
-/
import OperatingSystem.Thread.Entered

namespace OperatingSystem.Thread

open Lib (Reach)

variable {b : Build} {s s' : Library} {c : Call}
  {me id : Int} {t cur : MyThread} {why : Reason} {policy : Policy}

-- ============================================================= the account

/-- What the log says so far. -/
structure Account where
  created : List (Int × Int)
  finished : List Int
  running : Option Int
  deriving DecidableEq, Repr

/-- One more line. -/
def Account.read (a : Account) (l : LogLine) : Option Account :=
  match l.event with
  | .created =>
      if ValidPriority l.priority ∧ ∀ p ∈ a.created, p.1 < l.tid then
        some { a with created := a.created ++ [(l.tid, l.priority)] }
      else none
  | .scheduled =>
      if a.running = none ∧ (l.tid, l.priority) ∈ a.created
          ∧ l.tid ∉ a.finished then
        some { a with running := some l.tid }
      else none
  | .stopped =>
      if a.running = some l.tid ∧ (l.tid, l.priority) ∈ a.created then
        some { a with running := none }
      else none
  | .finished =>
      if a.running = some l.tid ∧ (l.tid, l.priority) ∈ a.created then
        some { a with running := none, finished := a.finished ++ [l.tid] }
      else none

/-- Read a log from its first line. -/
def replay (log : List LogLine) : Option Account :=
  log.foldlM Account.read ⟨[], [], none⟩

/-- The tids and priorities of all records. -/
def roster (s : Library) : List (Int × Int) :=
  s.threadListHead.map fun t => (t.tid, t.priority)

/-- What the log says is what the library holds. -/
structure Agrees (a : Account) (s : Library) : Prop where
  created : a.created = roster s
  running : a.running = s.currentActive
  finished : ∀ u, u ∈ a.finished ↔ Finished s u

/-- The line of a thread. -/
def lineOf (e : Event) (t : MyThread) : LogLine := ⟨e, t.tid, t.priority⟩

-- ======================================================== what lines record

theorem mem_roster (h : findByTid s id = some t) :
    (t.tid, t.priority) ∈ roster s :=
  List.mem_map_of_mem (findByTid_some h).1

theorem roster_onThread {f : MyThread → MyThread}
    (hf : ∀ t, (f t).tid = t.tid) (hp : ∀ t, (f t).priority = t.priority)
    (s : Library) (me : Int) : roster (s.onThread me f) = roster s := by
  unfold roster Library.onThread
  rw [List.map_map]
  refine List.map_congr_left fun t _ => ?_
  simp only [Function.comp_apply]
  split
  case isTrue => rw [hf, hp]
  case isFalse => rfl

theorem Quiet.roster_eq (h : Quiet s s') : roster s' = roster s := by
  obtain ⟨g, hg, hface⟩ := h.records
  unfold roster
  rw [hg, List.map_map]
  refine List.map_congr_left fun t _ => ?_
  simp only [Function.comp_apply]
  rw [(hface t).tid, (hface t).priority]

theorem Reason.record_priority (why : Reason) (t : MyThread) :
    (why.record t).priority = t.priority := by
  cases why <;> rfl

theorem roster_leaving (why : Reason) (me : Int) (cur : MyThread)
    (s : Library) : roster (leaving why me cur s) = roster s := by
  refine Eq.trans (roster_onThread ?_ ?_ _ _)
    (roster_onThread why.record_tid why.record_priority s me)
  · exact fun _ => rfl
  · exact fun _ => rfl

theorem Quiet.finished_iff (h : Quiet s s') (u : Int) :
    Finished s' u ↔ Finished s u := by
  obtain ⟨g, hg, hface⟩ := h.records
  unfold Finished
  rw [findByTid_map (fun t => (hface t).tid) hg]
  cases findByTid s u with
  | none => simp
  | some t => simp [(hface t).status]

/-- Steps that write no line and switch to nobody. -/
theorem Agrees.quiet {a : Account} (h : Agrees a s) (hq : Quiet s s')
    (hcur : s'.currentActive = s.currentActive) : Agrees a s' where
  created := h.created.trans hq.roster_eq.symm
  running := h.running.trans hcur.symm
  finished u := (h.finished u).trans (hq.finished_iff u).symm

/-- The caller's line: it was running, and now nobody is. -/
theorem Agrees.leave {a : Account} (h : Agrees a s)
    (hcur : s.currentActive = some me) (hfind : findByTid s me = some cur)
    (hst : cur.status ≠ .finished) (why : Reason) :
    ∃ a', a.read (lineOf why.event cur) = some a'
      ∧ Agrees a' { leaving why me cur s with currentActive := none } := by
  obtain ⟨hmem, rfl⟩ := findByTid_some hfind
  have hline : a.running = some cur.tid
      ∧ (cur.tid, cur.priority) ∈ a.created :=
    ⟨h.running.trans hcur, h.created ▸ mem_roster hfind⟩
  have hroster := roster_leaving why cur.tid cur s
  have hrec : findByTid (leaving why cur.tid cur s) cur.tid
      = some { why.record cur with active := false } :=
    findByTid_handOver why.record_tid hfind
  have hfin : ∀ u, Finished (leaving why cur.tid cur s) u
      ↔ if u = cur.tid then why = .ret else Finished s u := by
    intro u
    have h₁ : findByTid (s.onThread cur.tid why.record) u
        = if u = cur.tid then (findByTid s u).map why.record
          else findByTid s u := findByTid_onThread why.record_tid
    have h₂ : findByTid (leaving why cur.tid cur s) u
        = if u = cur.tid then some { why.record cur with active := false }
          else findByTid s u := by
      by_cases hu : u = cur.tid
      · rw [hu, if_pos rfl, hrec]
      · refine Eq.trans (findByTid_onThread fun _ => rfl) ?_
        rw [if_neg hu, if_neg hu, findByTid_log, h₁, if_neg hu]
    unfold Finished
    rw [h₂]
    by_cases hu : u = cur.tid
    · rw [if_pos hu, if_pos hu]
      cases why <;> simp [Reason.record]
    · rw [if_neg hu, if_neg hu]
  cases why with
  | yield | join tid =>
      refine ⟨_, if_pos hline, h.created.trans hroster.symm, rfl,
        fun u => (h.finished u).trans (Iff.trans ?_ (hfin u).symm)⟩
      by_cases hu : u = cur.tid
      · rw [if_pos hu, hu]
        refine iff_of_false ?_ fun heq => by cases heq
        rintro ⟨t, ht, hf⟩
        obtain rfl := Option.some.inj (hfind.symm.trans ht)
        exact hst hf
      · rw [if_neg hu]
  | ret =>
      refine ⟨_, if_pos hline, h.created.trans hroster.symm, rfl,
        fun u => ?_⟩
      refine Iff.trans ?_ (hfin u).symm
      rw [List.mem_append, List.mem_singleton, h.finished u]
      by_cases hu : u = cur.tid
      · rw [if_pos hu]
        exact iff_of_true (.inr hu) rfl
      · rw [if_neg hu]
        exact or_iff_left hu

/-- The line of the thread chosen. -/
theorem Agrees.start {a : Account}
    (h : Agrees a { s with currentActive := none })
    (hfind : findByTid s id = some t) (hst : t.status ≠ .finished)
    (o : Outside) :
    ∃ a', a.read (lineOf .scheduled t) = some a'
      ∧ Agrees a' (dispatched o id t s) := by
  obtain ⟨hmem, rfl⟩ := findByTid_some hfind
  have hnot : t.tid ∉ a.finished := fun hin => by
    obtain ⟨t', ht', hf⟩ := (h.finished t.tid).mp hin
    obtain rfl := Option.some.inj (hfind.symm.trans ht')
    exact hst hf
  have hmem : (t.tid, t.priority) ∈ a.created :=
    h.created ▸ mem_roster (s := s) hfind
  let f : MyThread → MyThread := fun t =>
    setStartTime o.startTime { t with active := true, status := .scheduled }
  have hf : ∀ t, (f t).tid = t.tid := fun _ => rfl
  have hp : ∀ t, (f t).priority = t.priority := fun _ => rfl
  refine ⟨_, if_pos ⟨h.running, hmem, hnot⟩,
    h.created.trans (roster_onThread hf hp s t.tid).symm, rfl,
    fun u => (h.finished u).trans ?_⟩
  refine Iff.trans ?_ (finished_onThread hf hfind).symm
  by_cases hu : u = t.tid
  · rw [if_pos hu, hu]
    refine iff_of_false ?_ nofun
    exact fun hfin => hnot ((h.finished t.tid).mpr hfin)
  · rw [if_neg hu]
    exact Iff.rfl

/-- The line of a new thread. -/
theorem Agrees.create {a : Account} (h : Agrees a s) (hwf : Wf policy s)
    {n : Int} (hn : ValidPriority n) (q : Rat)
    (hrec : s'.threadListHead
      = s.threadListHead ++ [newThread n q (s.threadCount + 1)])
    (hcur : s'.currentActive = s.currentActive) :
    ∃ a', a.read ⟨.created, s.threadCount + 1, n⟩ = some a' ∧ Agrees a' s' := by
  have hall : ∀ p ∈ a.created, p.1 < s.threadCount + 1 := by
    intro p hp
    rw [h.created] at hp
    obtain ⟨t, ht, rfl⟩ := List.mem_map.mp hp
    have := (hwf.range t.tid (List.mem_map_of_mem ht)).2
    dsimp only
    omega
  have hfresh : s.threadCount + 1 ∉ tids s := fun hin => by
    have := (hwf.range _ hin).2
    omega
  refine ⟨_, if_pos ⟨hn, hall⟩, ?_, h.running.trans hcur.symm, fun u => ?_⟩
  · unfold roster
    rw [hrec, List.map_append, h.created]
    rfl
  · refine (h.finished u).trans ?_
    have hfind : findByTid s' u = (findByTid s u).or
        (if s.threadCount + 1 = u then
          some (newThread n q (s.threadCount + 1)) else none) := by
      unfold findByTid
      rw [hrec, List.find?_append]
      congr 1
      by_cases hu : s.threadCount + 1 = u <;> simp [newThread, hu]
    unfold Finished
    rw [hfind]
    by_cases hu : s.threadCount + 1 = u
    · have hnone : findByTid s u = none := by
        cases hf : findByTid s u with
        | none => rfl
        | some t => exact absurd (mem_tids_of_findByTid hf) (hu ▸ hfresh)
      simp [hnone, hu, newThread]
    · simp [hu]

-- ============================================================= one call

theorem replay_append {log : List LogLine} {a : Account}
    (h : replay log = some a) (lines : List LogLine) :
    replay (log ++ lines) = lines.foldlM Account.read a := by
  unfold replay at *
  rw [List.foldlM_append, h]
  rfl

/-- The lines of a call that entered `my_scheduler`. -/
theorem Agrees.through {a : Account} (h : Agrees a s) (hp : Placed policy s)
    (ht : Through b c why s s') :
    ∃ lines a', s'.logFile = s.logFile ++ lines
      ∧ lines.foldlM Account.read a = some a' ∧ Agrees a' s' := by
  -- the library as it would be if `my_scheduler` left for main
  have half {r : Option Int} {s₁ : Library}
      (hnext : nextThread b c.outside (entering why s) = some (r, s₁)) :
      ∃ lines a', s₁.logFile = s.logFile ++ lines
        ∧ lines.foldlM Account.read a = some a'
        ∧ Agrees a' { s₁ with currentActive := none } := by
    rcases choice_quiet hnext with ⟨hcur, hq⟩ | ⟨me, cur, hcur, hfind, hq⟩
    · refine ⟨[], a, by rw [hq.log, List.append_nil], rfl, ?_⟩
      exact h.quiet ⟨hq.log, hq.records⟩ hcur.symm
    · obtain ⟨cur', hfind', hst⟩ := current_record hp.inv hcur
      obtain rfl := Option.some.inj (hfind.symm.trans hfind')
      obtain ⟨a', hread, hagrees⟩ := h.leave hcur hfind hst why
      refine ⟨[lineOf why.event cur], a', hq.log, ?_, ?_⟩
      · rw [List.foldlM_cons, hread]
        rfl
      · exact hagrees.quiet ⟨hq.log, hq.records⟩ rfl
  rcases myScheduler_cases ht.scheduled with
    ⟨s₁, hnext, rfl⟩ | ⟨id, t, s₁, hnext, hfind, rfl⟩
  · obtain ⟨lines, a', hlog, hfold, hagrees⟩ := half hnext
    exact ⟨lines, a', hlog, hfold, hagrees⟩
  · obtain ⟨lines, a', hlog, hfold, hagrees⟩ := half hnext
    have hst : t.status ≠ .finished := fun hfin =>
      chosen_unfinished hp ht.known hnext ⟨t, hfind, hfin⟩
    obtain ⟨a'', hread, hagrees'⟩ := hagrees.start hfind hst c.outside
    refine ⟨lines ++ [lineOf .scheduled t], a'', ?_, ?_, hagrees'⟩
    · rw [← List.append_assoc, ← hlog]
      rfl
    · rw [List.foldlM_append, hfold]
      simp only [Option.bind_eq_bind, Option.bind_some, List.foldlM_cons,
        hread, List.foldlM_nil]
      rfl

/-- The lines of one call continue the account. -/
theorem Agrees.call {a : Account} (h : Agrees a s) (hp : Placed policy s)
    (hst : (system b policy).step c s = some s') :
    ∃ lines a', s'.logFile = s.logFile ++ lines
      ∧ lines.foldlM Account.read a = some a' ∧ Agrees a' s' := by
  obtain ⟨⟨out, s'⟩, hcall, rfl⟩ := Option.map_eq_some_iff.mp hst
  rcases call_cases hp.wf.initialized hcall with
    ⟨func, malloc, n, rfl, hcreate⟩ | ⟨tid, o, rfl, -, rfl⟩ | ⟨-, why, ht⟩
  · rcases threadCreate_cases hcreate with
      (rfl | rfl) | ⟨hn, q, rfl⟩
    · exact ⟨[], a, (List.append_nil _).symm, rfl, h⟩
    · exact ⟨[], a, (List.append_nil _).symm, rfl,
        h.quiet (.of_records rfl rfl) rfl⟩
    · obtain ⟨hrecords, hcur, hlog⟩ := created_spec n q s
      obtain ⟨a', hread, hagrees⟩ := h.create hp.wf hn q hrecords hcur
      refine ⟨[⟨.created, s.threadCount + 1, n⟩], a', hlog, ?_, hagrees⟩
      rw [List.foldlM_cons, hread]
      rfl
  · exact ⟨[], a, (List.append_nil _).symm, rfl, h⟩
  · exact h.through hp ht

-- ========================================================== the whole log

/-- Under every policy and in every run, `log_file` replays, and what it
says is what the library holds. -/
theorem log_replays (h : Reach (system b policy) Lib.Anything s) :
    ∃ a, replay s.logFile = some a ∧ Agrees a s := by
  suffices hboth : Placed policy s ∧ ∃ a, replay s.logFile = some a
      ∧ Agrees a s from hboth.2
  refine h.invariant (I := fun s => Placed policy s
    ∧ ∃ a, replay s.logFile = some a ∧ Agrees a s) ?_ ?_
  · rintro t rfl
    refine ⟨placed_libinit policy, _, rfl, rfl, rfl, fun u => ?_⟩
    refine iff_of_false List.not_mem_nil ?_
    rintro ⟨t, ht, -⟩
    cases ht
  · rintro c t t' ⟨hp, a, ha, hagrees⟩ - hst
    obtain ⟨lines, a', hlog, hfold, hagrees'⟩ := hagrees.call hp hst
    refine ⟨(hp.step hst).1, a', ?_, hagrees'⟩
    rw [hlog, replay_append ha, hfold]

/-- The theorem where thread 1 has joined thread 2, which has returned. -/
theorem log_replays_return : ∃ s,
    Lib.run (system .plain .priority)
        [.create true true 0, .create true true 1, .yield zero, .join 1 zero,
          .ret zero]
        (libinit .priority) = some s
      ∧ s.logFile.map LogLine.tid = [1, 2, 2, 2, 1, 1, 2]
      ∧ ∃ a, replay s.logFile = some a ∧ Agrees a s := by
  let after := (Lib.run (system .plain .priority)
    [.create true true 0, .create true true 1, .yield zero, .join 1 zero,
      .ret zero] (libinit .priority)).get (by decide +kernel)
  refine ⟨after, by decide +kernel, by decide +kernel, ?_⟩
  exact log_replays (Lib.reach_of_run _ rfl (Option.some_get _).symm)

end OperatingSystem.Thread
