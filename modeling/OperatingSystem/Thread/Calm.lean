/-
No step at a quiet point leaves the table of `Thread.Phases`, so a calm
run is orderly; one alarm in `thread_wrapper` is enough for a run that is
not.

# The shape of the argument

One lemma for each phase says where its next step leads, one for the alarm
and one for what user code does. The steps between the write of a status
and `my_scheduler` are those for which the alarm must be silent: with it
the handler would write YIELD over what `thread_join` or `thread_wrapper`
has recorded, and the thread would later go on from inside a call that
gives up the processor a second time.
-/
import OperatingSystem.Thread.Phases

namespace OperatingSystem.Thread.Alarm

variable {b : Build} {o : Outside} {s s' : Library} {m m' : Machine} {t : Int}
  {r : Reason} {cur : MyThread} {fs : List Frame}

-- ================================================ what a step writes

namespace Machine

/-- `swapcontext` goes on with what the other object holds. -/
theorem swap_frames {out into : Slot} (h : into ≠ out) :
    (m.swap out into fs).frames = (m.cpu.saved into).frames :=
  congrArg Context.frames (Lib.Contexts.swapcontext_pc h)

/-- What goes on later is what `swapcontext` was told. -/
theorem swap_saved_self {out into : Slot} :
    ((m.swap out into fs).cpu.saved out).frames = fs := by
  unfold swap
  rw [Lib.Contexts.swapcontext_saved, if_pos rfl]
  rfl

/-- `swapcontext` saves in its first object only. -/
theorem swap_saved_ne {out into k : Slot} (h : k ≠ out) :
    (m.swap out into fs).cpu.saved k = m.cpu.saved k := by
  unfold swap
  rw [Lib.Contexts.swapcontext_saved, if_neg h]
  rfl

end Machine

/-- `makecontext` of the scheduler's object touches nobody else. -/
theorem Kept.makeScheduler (h : Kept s m.cpu.saved m.returned) :
    Kept s m.makeScheduler.cpu.saved m.makeScheduler.returned :=
  h.resave rfl fun _ _ _ => rfl

/-- A line in the log is nobody's concern. -/
theorem Kept.log {saved : Slot → Context} {returned : List Int}
    (h : Kept s saved returned) (e : Event) (cur : MyThread) :
    Kept (s.log e cur) saved returned :=
  ⟨h.wf.log e, h.inv, h.rested, h.known, h.main⟩

-- ================================================== code at a quiet point

/-- User code runs on top of its base only. -/
theorem Code.of_user {e : Option Int} (h : Code e (.user :: fs)) :
    fs = base e := by
  cases h with
  | user => rfl
  | call hf => cases hf

/-- Main and threads go on with user code. -/
theorem settled_user (h : Kept s m.cpu.saved m.returned) (hlib : m.lib = s)
    (hfr : m.frames = .user :: base s.currentActive)
    (hlive : Live s m.returned) : Settled m :=
  ⟨s, h, .code hlib (hfr ▸ .user) hlive⟩

/-- `thread_create` counts a thread, or fails. -/
theorem settled_create (h : Kept s m.cpu.saved m.returned) (hlib : m.lib = s)
    (hlive : Live s m.returned) (func malloc : Bool) (n : Int) :
    Settled (m.threadCreate (.entered func malloc n)
      (.user :: base s.currentActive)) := by
  unfold Machine.threadCreate
  dsimp only
  split
  case isTrue => exact settled_user h hlib rfl hlive
  case isFalse hvalid =>
  split
  case isTrue => exact settled_user h hlib rfl hlive
  case isFalse =>
  split
  case isTrue => exact settled_user h hlib rfl hlive
  case isFalse =>
  subst hlib
  split
  case isTrue => exact settled_user h.count_succ rfl rfl hlive
  case isFalse =>
  have hn : ValidPriority n := by
    unfold ValidPriority
    by_contra hno
    push Not at hno
    exact hvalid hno
  have hcount := h.wf.count
  refine ⟨_, h.count_succ, .creating rfl rfl ?_ hlive⟩
  refine .counted hn ?_ ?_
  · show 0 < m.lib.threadCount + 1
    omega
  · intro hmem
    have hle : m.lib.threadCount + 1 ≤ m.lib.threadCount :=
      (h.wf.range _ hmem).2
    omega

/-- Its line in the log ends it. -/
theorem settled_queued (h : Kept s m.cpu.saved m.returned) (hlib : m.lib = s)
    (hlive : Live s m.returned) (tid : Int) :
    Settled (m.threadCreate (.queued tid)
      (.user :: base s.currentActive)) := by
  unfold Machine.threadCreate
  dsimp only
  split
  case h_1 => exact settled_user h hlib rfl hlive
  case h_2 t _ =>
      subst hlib
      exact settled_user (h.log .created t) rfl rfl hlive

/-- Whoever runs has a record. -/
theorem Kept.record {saved : Slot → Context} {returned : List Int}
    (h : Kept s saved returned) (hcur : s.currentActive = some t) :
    ∃ cur, findByTid s t = some cur := by
  obtain ⟨cur, hfind, -⟩ := current_record h.inv hcur
  exact ⟨cur, hfind⟩

/-- `thread_yield` marks the thread, or leaves main. -/
theorem settled_yield (h : Kept s m.cpu.saved m.returned) (hlib : m.lib = s)
    (hlive : Live s m.returned)
    (hstep : m.threadYield .entered (.user :: base s.currentActive)
      = some m') : Settled m' := by
  have hinit : ¬m.lib.initialized = false := by
    rw [hlib, h.wf.initialized]
    decide
  unfold Machine.threadYield at hstep
  dsimp only at hstep
  rw [if_neg hinit] at hstep
  subst hlib
  cases hcur : m.lib.currentActive with
  | none =>
      simp only [hcur] at hstep
      obtain rfl := Option.some.inj hstep
      exact ⟨m.lib, h, .idle rfl hcur rfl nofun⟩
  | some t =>
      obtain ⟨cur, hfind⟩ := h.record hcur
      simp only [hcur, hfind] at hstep
      obtain rfl := Option.some.inj hstep
      have hg : Gives m.lib t .yield cur := ⟨hcur, hfind, nofun⟩
      exact ⟨m.lib, h, .marked hg rfl .yield fun _ => hlive t hcur⟩

/-- `thread_join` marks the thread and makes the scheduler's context, or
leaves main, or finds nobody to wait for. -/
theorem settled_join (h : Kept s m.cpu.saved m.returned) (hlib : m.lib = s)
    (hlive : Live s m.returned) (tid : Int)
    (hstep : m.threadJoin (.entered tid) (.user :: base s.currentActive)
      = some m') : Settled m' := by
  have hinit : ¬m.lib.initialized = false := by
    rw [hlib, h.wf.initialized]
    decide
  unfold Machine.threadJoin at hstep
  dsimp only at hstep
  rw [if_neg hinit] at hstep
  subst hlib
  cases htid : findByTid m.lib tid with
  | none =>
      simp only [htid] at hstep
      obtain rfl := Option.some.inj hstep
      exact settled_user h rfl rfl hlive
  | some target =>
      simp only [htid] at hstep
      cases hcur : m.lib.currentActive with
      | none =>
          simp only [hcur] at hstep
          obtain rfl := Option.some.inj hstep
          exact ⟨m.lib, h, .idle rfl hcur rfl nofun⟩
      | some t =>
          obtain ⟨cur, hfind⟩ := h.record hcur
          simp only [hcur, hfind] at hstep
          obtain rfl := Option.some.inj hstep
          have hg : Gives m.lib t (.join tid) cur := by
            refine ⟨hcur, hfind, ?_⟩
            intro u hu
            obtain rfl := Reason.join.inj hu
            exact mem_tids_of_findByTid htid
          exact ⟨m.lib, h.makeScheduler,
            .made hg rfl .join rfl fun _ => hlive t hcur⟩

/-- The next step of code at a quiet point. -/
theorem settled_code (h : Kept s m.cpu.saved m.returned) (hlib : m.lib = s)
    (hcode : Code s.currentActive m.frames) (hlive : Live s m.returned)
    (hstep : m.next b o = some m') : Settled m' := by
  obtain ⟨e, he⟩ : ∃ e, s.currentActive = e := ⟨_, rfl⟩
  obtain ⟨fs, hfs⟩ : ∃ fs, m.frames = fs := ⟨_, rfl⟩
  unfold Machine.next at hstep
  rw [hfs] at hstep hcode
  rw [he] at hcode
  cases hcode with
  | user => cases hstep
  | call hf =>
      rw [← he] at hstep
      cases hf with
      | creates =>
          obtain rfl := Option.some.inj hstep
          exact settled_create h hlib hlive _ _ _
      | created =>
          obtain rfl := Option.some.inj hstep
          exact settled_queued h hlib hlive _
      | yields => exact settled_yield h hlib hlive hstep
      | yielded =>
          obtain rfl := Option.some.inj hstep
          exact settled_user h hlib rfl hlive
      | joins => exact settled_join h hlib hlive _ hstep
      | joined =>
          obtain rfl := Option.some.inj hstep
          exact settled_user h hlib rfl hlive
  | @start t =>
      obtain rfl := Option.some.inj hstep
      refine settled_user h hlib ?_ hlive
      rw [he]
      rfl
  | back hback =>
      obtain rfl := Option.some.inj hstep
      exact ⟨s, h, .code hlib (he ▸ hback) hlive⟩
  | libinit =>
      obtain rfl := Option.some.inj hstep
      refine settled_user h hlib ?_ hlive
      rw [he]
      rfl

-- ======================================================== thread_create

/-- The context of a new thread starts in `thread_wrapper`. -/
theorem rested_new {saved : Slot → Context} {returned : List Int}
    (h : Kept s saved returned) {x : Int} (hx : x ∉ tids s) (blocked : Bool) :
    Rested (Function.update saved (.thread x) ⟨[.wrapper x .start], blocked⟩)
      returned x := by
  refine ⟨?_, fun hret => hx (h.known x hret)⟩
  rw [Function.update_self]
  exact .start

/-- A new thread is listed. -/
theorem settled_filled (h : Kept m.lib m.cpu.saved m.returned) {n : Int}
    {q : Rat} {blocked : Bool} (hn : ValidPriority n)
    (hpos : 0 < m.lib.threadCount) (hfresh : m.lib.threadCount ∉ tids m.lib)
    (hlive : Live m.lib m.returned) :
    Settled (m.threadCreate
      (.filled (newThread n q m.lib.threadCount) blocked)
      (.user :: base m.lib.currentActive)) := by
  let t := newThread n q m.lib.threadCount
  let s : Library :=
    { m.lib with threadListHead := m.lib.threadListHead ++ [t] }
  have hnone : findByTid m.lib t.tid = none := by
    cases hfind : findByTid m.lib t.tid with
    | none => rfl
    | some t => exact absurd (mem_tids_of_findByTid hfind) hfresh
  have hnowhere : ∀ x, (view s).places x ≠ 0 → x ≠ m.lib.threadCount := by
    rintro x hx rfl
    rw [places_append h.inv hfresh] at hx
    exact hfresh (List.mem_toFinset.mp (h.inv.known _ hx))
  unfold Machine.threadCreate
  dsimp only
  rw [hnone]
  refine ⟨s, (h.append hn hpos hfresh).resave rfl ?_,
    .creating rfl rfl ?_ hlive⟩
  · -- nobody off the processor has the new tid
    intro x hx _
    refine Function.update_of_ne ?_ _ _
    exact fun heq => hnowhere x hx (Slot.thread.inj heq)
  · refine .listed (t := t) ?_ rfl nofun ?_ (rested_new h hfresh blocked)
    · exact List.mem_append_right _ List.mem_cons_self
    · by_contra hne
      exact hnowhere _ hne rfl

/-- A listed thread becomes ready. -/
theorem settled_listed (h : Kept m.lib m.cpu.saved m.returned) {t : MyThread}
    (ht : t ∈ m.lib.threadListHead) (htid : t.tid = m.lib.threadCount)
    (hst : t.status ≠ .finished)
    (hno : (view m.lib).places m.lib.threadCount = 0)
    (hrest : Rested m.cpu.saved m.returned m.lib.threadCount)
    (hlive : Live m.lib m.returned) :
    Settled (m.threadCreate (.listed m.lib.threadCount t.priority)
      (.user :: base m.lib.currentActive)) := by
  have hpush := pushed_queueFor h.wf (by decide) ht
  rw [queueFor_push, htid] at hpush
  have hd : ¬Finished m.lib m.lib.threadCount := by
    rintro ⟨t', ht', hst'⟩
    have hfind := findByTid_of_mem h.wf.nodup ht
    rw [htid, ht'] at hfind
    obtain rfl := Option.some.inj hfind
    exact hst hst'
  have hmem : m.lib.threadCount ∈ tids m.lib :=
    htid ▸ List.mem_map_of_mem ht
  unfold Machine.threadCreate
  dsimp only
  refine ⟨_, h.push hpush hmem hd hno hrest, .code rfl ?_ ?_⟩
  · rw [hpush.base.current]
    exact .call .created
  · rw [Live, hpush.base.current]
    exact hlive

/-- The record is filled in and listed, and the thread becomes ready. -/
theorem settled_creating {p : CreatePoint} (h : Kept s m.cpu.saved m.returned)
    (hlib : m.lib = s) (hp : Creating s m.cpu.saved m.returned p)
    (hlive : Live s m.returned) :
    Settled (m.threadCreate p (.user :: base s.currentActive)) := by
  subst hlib
  cases hp with
  | counted hn hpos hfresh =>
      exact ⟨m.lib, h, .creating rfl rfl (.filled hn hpos hfresh) hlive⟩
  | filled hn hpos hfresh => exact settled_filled h hn hpos hfresh hlive
  | listed ht htid hst hno hrest =>
      exact settled_listed h ht htid hst hno hrest hlive

-- ================================================= giving up the processor

/-- Main leaves through `scheduler_context`. -/
theorem settled_leaveMain (h : Kept s m.cpu.saved m.returned)
    (hlib : m.lib = s) (hcur : s.currentActive = none) {made : Bool}
    (hmade : made = true → Ready m) : Settled (m.leaveMain made [.user]) := by
  unfold Machine.leaveMain
  cases made with
  | false =>
      exact ⟨s, h.makeScheduler, .idle hlib hcur rfl fun _ => rfl⟩
  | true => exact ⟨s, h, .enteredByMain hlib hcur (hmade rfl)⟩

/-- `thread_wrapper` marks the thread behind `func`. -/
theorem settled_returned (h : Kept s m.cpu.saved m.returned)
    (hlib : m.lib = s) (hcur : s.currentActive = some t)
    (hstep : m.threadWrapper t .returned [] = some m') : Settled m' := by
  obtain ⟨cur, hfind⟩ := h.record hcur
  have hg : Gives s t .finished cur := ⟨hcur, hfind, nofun⟩
  subst hlib
  unfold Machine.threadWrapper at hstep
  simp only [hcur, hfind] at hstep
  obtain rfl := Option.some.inj hstep
  exact ⟨m.lib, h, .marked hg rfl .wrapper fun hne => absurd rfl hne⟩

/-- A marked thread writes its line and makes the scheduler's context. -/
theorem settled_marked (h : Kept s m.cpu.saved m.returned)
    (hg : Gives s t r cur) (hlib : m.lib = s.onThread t r.mark)
    (hfr : Marked t r m.frames) (hlive : r ≠ .finished → t ∉ m.returned)
    (hstep : m.next b o = some m') : Settled m' := by
  have hfind : findByTid m.lib t = some (r.mark cur) := by
    rw [hlib]
    exact hg.record_marked
  have hgiven : m.lib.log r.event (r.mark cur) = given r t cur s := by
    rw [log_mark, hlib]
    rfl
  obtain ⟨fs, hfs⟩ : ∃ fs, m.frames = fs := ⟨_, rfl⟩
  unfold Machine.next at hstep
  rw [hfs] at hstep hfr
  cases hfr with
  | yield =>
      unfold Machine.threadYield at hstep
      simp only [hfind] at hstep
      obtain rfl := Option.some.inj hstep
      exact ⟨s, h.makeScheduler, .made hg hgiven .yield rfl hlive⟩
  | wrapper =>
      have hcur : m.lib.currentActive = some t := by
        rw [hlib]
        exact hg.current
      unfold Machine.threadWrapper at hstep
      simp only [hcur, Option.bind_some, hfind] at hstep
      obtain rfl := Option.some.inj hstep
      exact ⟨s, h.makeScheduler, .made hg hgiven .wrapper rfl hlive⟩

/-- In front of `swapcontext`, the next step is that `swapcontext`, and
what it saves is code at a quiet point unless the thread has finished. -/
theorem Made.next (hfr : Made t r m.frames)
    (hcur : m.lib.currentActive = some t) :
    ∃ fs, m.next b o = some (m.swap (.thread t) .scheduler fs)
      ∧ (r ≠ .finished → Code (some t) fs) := by
  obtain ⟨fs, hfs⟩ : ∃ fs, m.frames = fs := ⟨_, rfl⟩
  unfold Machine.next
  rw [hfs] at hfr ⊢
  cases hfr with
  | yield => exact ⟨_, rfl, fun _ => .call .yielded⟩
  | join =>
      unfold Machine.threadJoin
      simp only [hcur]
      exact ⟨_, rfl, fun _ => .call .joined⟩
  | handler hcode => exact ⟨_, rfl, fun _ => .back hcode⟩
  | wrapper =>
      unfold Machine.threadWrapper
      simp only [hcur]
      exact ⟨_, rfl, fun hne => absurd rfl hne⟩

/-- The thread saves its context and `my_scheduler` starts. -/
theorem settled_made (h : Kept s m.cpu.saved m.returned)
    (hg : Gives s t r cur) (hlib : m.lib = given r t cur s)
    (hfr : Made t r m.frames) (hready : Ready m)
    (hlive : r ≠ .finished → t ∉ m.returned)
    (hstep : m.next b o = some m') : Settled m' := by
  have hcur : m.lib.currentActive = some t := by
    rw [hlib]
    exact hg.current
  obtain ⟨fs, hnext, hcode⟩ := hfr.next (b := b) (o := o) hcur
  obtain rfl := Option.some.inj (hnext.symm.trans hstep)
  refine ⟨s, h.resave ?_ ?_, .entered hg hlib ?_ fun hne => ⟨?_, hlive hne⟩⟩
  · exact Machine.swap_saved_ne nofun
  · -- only the running thread's own object is written
    intro x _ hne
    refine Machine.swap_saved_ne fun heq => hne ?_
    rw [hg.current, Slot.thread.inj heq]
  · rw [Machine.swap_frames]
    · exact hready
    · nofun
  · rw [Machine.swap_saved_self]
    exact hcode hne

-- ========================================================== my_scheduler

/-- The library `my_scheduler` dispatches to. -/
theorem dispatch_current {id : Int} (h : dispatch o id s = some s') :
    s'.currentActive = none ∨ s'.currentActive = some id := by
  unfold dispatch at h
  split at h
  case h_1 => cases h
  case h_2 =>
    dsimp only at h
    split at h
    case isTrue =>
      obtain rfl := Option.some.inj h
      exact .inl rfl
    case isFalse =>
      obtain rfl := Option.some.inj h
      exact .inr rfl

/-- `my_scheduler` goes on with the library it has decided for. -/
theorem settled_decided (hs : Thread.myScheduler b o m.lib = some s')
    (h : Kept s' m.cpu.saved m.returned)
    (hrest : ∀ x ∈ s'.currentActive, Rested m.cpu.saved m.returned x)
    (hstep : m.myScheduler b o .entered [] = some m') : Settled m' := by
  unfold Machine.myScheduler at hstep
  unfold Thread.myScheduler at hs
  dsimp only at hstep
  cases hnext : nextThread b o m.lib with
  | none =>
      rw [hnext] at hs
      cases hs
  | some choice =>
      obtain ⟨choice, s₁⟩ := choice
      rw [hnext] at hs hstep
      cases choice with
      | none =>
          obtain rfl := Option.some.inj hs
          dsimp only at hstep
          split at hstep
          case isTrue =>
            obtain rfl := Option.some.inj hstep
            exact ⟨_, h.makeScheduler, .leaving rfl rfl rfl⟩
          case isFalse =>
            obtain rfl := Option.some.inj hstep
            exact ⟨_, h.makeScheduler, .unmanned rfl rfl⟩
      | some id =>
          dsimp only at hs hstep
          rw [hs] at hstep
          dsimp only at hstep
          split at hstep
          next hcur =>
            obtain rfl := Option.some.inj hstep
            exact ⟨s', h.makeScheduler, .leaving rfl hcur rfl⟩
          next x hcur =>
            obtain rfl := Option.some.inj hstep
            have hid : s'.currentActive = some id := by
              rcases dispatch_current hs with hno | hid
              · rw [hno] at hcur
                cases hcur
              · exact hid
            exact ⟨s', h, .chosen rfl hid (.inl rfl) rfl (hrest id hid)⟩

/-- `my_scheduler` on behalf of a thread. -/
theorem settled_entered (h : Kept s m.cpu.saved m.returned)
    (hg : Gives s t r cur) (hlib : m.lib = given r t cur s)
    (hrest : r ≠ .finished → Rested m.cpu.saved m.returned t)
    (hstep : m.myScheduler b o .entered [] = some m') : Settled m' := by
  obtain ⟨s', hs, hkept, hall⟩ := hg.kept h hrest b o
  exact settled_decided (hlib ▸ hs) hkept hall hstep

/-- `my_scheduler` on behalf of main. -/
theorem settled_enteredByMain (h : Kept s m.cpu.saved m.returned)
    (hlib : m.lib = s) (hcur : s.currentActive = none)
    (hstep : m.myScheduler b o .entered [] = some m') : Settled m' := by
  obtain ⟨s', hs, hkept, hall⟩ := h.main_switch hcur b o
  exact settled_decided (hlib ▸ hs) hkept hall hstep

/-- `my_scheduler` goes back to main. -/
theorem settled_leaving (h : Kept s m.cpu.saved m.returned) (hlib : m.lib = s)
    (hcur : s.currentActive = none) :
    Settled (m.swap .scheduler .main [.scheduler .switched]) := by
  refine ⟨s, h.resave ?_ ?_, .code hlib ?_ ?_⟩
  · exact Machine.swap_saved_ne nofun
  · exact fun _ _ _ => Machine.swap_saved_ne nofun
  · rw [Machine.swap_frames, h.main, hcur]
    · exact .libinit
    · nofun
  · rw [Live, hcur]
    exact nofun

/-- `my_scheduler` goes to the thread it has chosen. -/
theorem settled_chosen {id : Int} {p : SchedulerPoint}
    (h : Kept s m.cpu.saved m.returned) (hlib : m.lib = s)
    (hcur : s.currentActive = some id) (hp : p = .chosen id ∨ p = .made id)
    (hrest : Rested m.cpu.saved m.returned id)
    (hstep : m.myScheduler b o p [] = some m') : Settled m' := by
  unfold Machine.myScheduler at hstep
  rcases hp with rfl | rfl
  · obtain rfl := Option.some.inj hstep
    exact ⟨s, h.makeScheduler, .chosen hlib hcur (.inr rfl) rfl hrest⟩
  · dsimp only at hstep
    split at hstep
    case isTrue => cases hstep
    case isFalse =>
      obtain rfl := Option.some.inj hstep
      refine ⟨s, h.resave ?_ ?_, .code hlib ?_ ?_⟩
      · exact Machine.swap_saved_ne nofun
      · exact fun _ _ _ => Machine.swap_saved_ne nofun
      · rw [Machine.swap_frames, hcur]
        · exact hrest.1
        · nofun
      · intro x hx
        obtain rfl := Option.some.inj (hcur.symm.trans hx)
        exact hrest.2

-- ============================================================== the steps

/-- The library's next step leads from phase to phase. -/
theorem Settled.next (h : Settled m) (hstep : m.next b o = some m') :
    Settled m' := by
  obtain ⟨s, hkept, hphase⟩ := h
  have hrest := hstep
  unfold Machine.next at hrest
  cases hphase with
  | code hlib hcode hlive => exact settled_code hkept hlib hcode hlive hstep
  | creating hlib hfr hp hlive =>
      rw [hfr] at hrest
      obtain rfl := Option.some.inj hrest
      exact settled_creating hkept hlib hp hlive
  | idle hlib hcur hfr hmade =>
      rw [hfr] at hrest
      obtain rfl := Option.some.inj hrest
      exact settled_leaveMain hkept hlib hcur hmade
  | returned hlib hcur hfr =>
      rw [hfr] at hrest
      exact settled_returned hkept hlib hcur hrest
  | marked hg hlib hfr hlive =>
      exact settled_marked hkept hg hlib hfr hlive hstep
  | made hg hlib hfr hready hlive =>
      exact settled_made hkept hg hlib hfr hready hlive hstep
  | entered hg hlib hfr hback =>
      rw [hfr] at hrest
      exact settled_entered hkept hg hlib hback hrest
  | enteredByMain hlib hcur hfr =>
      rw [hfr] at hrest
      exact settled_enteredByMain hkept hlib hcur hrest
  | unmanned hlib hfr =>
      rw [hfr] at hrest
      obtain rfl := Option.some.inj hrest
      exact ⟨s, hkept, .leaving hlib.symm (hlib ▸ rfl) rfl⟩
  | leaving hlib hcur hfr =>
      rw [hfr] at hrest
      obtain rfl := Option.some.inj hrest
      exact settled_leaving hkept hlib hcur
  | chosen hlib hcur hp hfr hback =>
      rw [hfr] at hrest
      exact settled_chosen hkept hlib hcur hp hback hrest

/-- User code is where a call starts or a thread's function returns. -/
theorem Phase.of_user (h : Phase s m) (hfr : m.frames = .user :: fs) :
    m.lib = s ∧ fs = base s.currentActive ∧ Live s m.returned := by
  cases h with
  | code hlib hcode hlive =>
      rw [hfr] at hcode
      exact ⟨hlib, hcode.of_user, hlive⟩
  | marked _ _ hmarked _ =>
      rw [hfr] at hmarked
      cases hmarked
  | made _ _ hmade _ _ =>
      rw [hfr] at hmade
      cases hmade
  | creating _ hfr' _ _ | idle _ _ hfr' _ | returned _ _ hfr'
  | entered _ _ hfr' _ | enteredByMain _ _ hfr' | unmanned _ hfr'
  | leaving _ _ hfr' | chosen _ _ _ hfr' _ =>
      rw [hfr'] at hfr
      cases hfr

/-- A call starts. -/
theorem Settled.call {f : Frame} (h : Settled m) (hf : Paused f)
    (hstep : m.call f = some m') : Settled m' := by
  obtain ⟨s, hkept, hphase⟩ := h
  unfold Machine.call at hstep
  split at hstep
  case h_1 fs hfr =>
      obtain ⟨hlib, rfl, hlive⟩ := hphase.of_user hfr
      obtain rfl := Option.some.inj hstep
      exact ⟨s, hkept, .code hlib (.call hf) hlive⟩
  case h_2 => cases hstep

/-- A thread's function returns. -/
theorem Settled.ret (h : Settled m) (hstep : m.ret = some m') :
    Settled m' := by
  obtain ⟨s, hkept, hphase⟩ := h
  unfold Machine.ret at hstep
  split at hstep
  case h_1 t fs hfr =>
      obtain ⟨hlib, hbase, hlive⟩ := hphase.of_user hfr
      obtain rfl := Option.some.inj hstep
      -- only a thread has `thread_wrapper` below its code
      have hcur : s.currentActive = some t ∧ fs = [] := by
        cases hcur : s.currentActive with
        | none =>
            rw [hcur] at hbase
            cases hbase
        | some x =>
            rw [hcur] at hbase
            obtain ⟨heq, rfl⟩ := List.cons.inj hbase
            obtain ⟨rfl, -⟩ := Frame.wrapper.inj heq
            exact ⟨rfl, rfl⟩
      obtain ⟨hcur, rfl⟩ := hcur
      refine ⟨s, ⟨hkept.wf, hkept.inv, ?_, ?_, hkept.main⟩,
        .returned hlib hcur rfl⟩
      · intro x hx hne
        obtain ⟨hcode, hret⟩ := hkept.rested x hx hne
        refine ⟨hcode, fun hmem => ?_⟩
        rcases List.mem_cons.mp hmem with rfl | hmem
        · exact hne hcur
        · exact hret hmem
      · intro x hx
        rcases List.mem_cons.mp hx with rfl | hx
        · obtain ⟨cur, hfind⟩ := hkept.record hcur
          exact mem_tids_of_findByTid hfind
        · exact hkept.known x hx
  case h_2 => cases hstep

/-- A thread that has marked its record is at no quiet point. -/
theorem Marked.not_quiet {f : Frame} (h : Marked t r fs)
    (hf : f ∈ fs.head?) : f.quiet = false := by
  cases h with
  | yield | wrapper =>
      obtain rfl := Option.some.inj hf
      rfl

/-- Nor is one in front of its `swapcontext`. -/
theorem Made.not_quiet {f : Frame} (h : Made t r fs) (hf : f ∈ fs.head?) :
    f.quiet = false := by
  cases h with
  | yield | join | handler _ | wrapper =>
      obtain rfl := Option.some.inj hf
      rfl

/-- A thread at a quiet point runs code the library knows how to go back
to. -/
theorem Phase.of_quiet {f : Frame} (h : Phase s m)
    (hcur : m.lib.currentActive = some t) (hf : f ∈ m.frames.head?)
    (hquiet : f.quiet = true) :
    m.lib = s ∧ Code (some t) m.frames ∧ Live s m.returned := by
  cases h with
  | code hlib hcode hlive =>
      subst hlib
      exact ⟨rfl, hcur ▸ hcode, hlive⟩
  | creating _ hfr hp _ =>
      rw [hfr] at hf
      obtain rfl := Option.some.inj hf
      cases hp <;> cases hquiet
  | marked _ _ hmarked _ =>
      rw [hmarked.not_quiet hf] at hquiet
      cases hquiet
  | made _ _ hmade _ _ =>
      rw [hmade.not_quiet hf] at hquiet
      cases hquiet
  | idle _ _ hfr' _ | returned _ _ hfr'
  | entered _ _ hfr' _ | enteredByMain _ _ hfr' | unmanned _ hfr'
  | leaving _ _ hfr' | chosen _ _ _ hfr' _ =>
      rw [hfr'] at hf
      obtain rfl := Option.some.inj hf
      cases hquiet

/-- While `current_active` is NULL the library is as between two calls. -/
theorem Phase.of_none (h : Phase s m) (hcur : m.lib.currentActive = none) :
    m.lib = s ∧ s.currentActive = none := by
  have hself (hlib : m.lib = s) : m.lib = s ∧ s.currentActive = none :=
    ⟨hlib, hlib ▸ hcur⟩
  cases h with
  | code hlib _ _ | creating hlib _ _ _ | idle hlib _ _ _ | returned hlib _ _
  | enteredByMain hlib _ _ | leaving hlib _ _ | chosen hlib _ _ _ _ =>
      exact hself hlib
  | marked hg hlib _ _ =>
      rw [hlib, onThread_currentActive, hg.current] at hcur
      cases hcur
  | made hg hlib _ _ _ | entered hg hlib _ _ =>
      rw [hlib, given, log_currentActive, onThread_currentActive,
        hg.current] at hcur
      cases hcur
  | unmanned hlib _ =>
      refine hself ?_
      rw [hlib, ← hcur]

/-- The alarm goes off at a quiet point. -/
theorem Settled.alarm (h : Settled m) (hcalm : Calm .alarm m)
    (hstep : m.alarm = some m') : Settled m' := by
  obtain ⟨s, hkept, hphase⟩ := h
  unfold Machine.alarm at hstep
  split at hstep
  case isTrue => cases hstep
  case isFalse =>
  cases hcur : m.lib.currentActive with
  | none =>
      obtain ⟨hlib, hnone⟩ := hphase.of_none hcur
      simp only [hcur] at hstep
      obtain rfl := Option.some.inj hstep
      exact ⟨s, hkept.makeScheduler, .enteredByMain hlib hnone rfl⟩
  | some t =>
      rcases hcalm rfl with hno | ⟨f, hf, hquiet⟩
      · rw [hcur] at hno
        cases hno
      · obtain ⟨rfl, hcode, hlive⟩ := hphase.of_quiet hcur hf hquiet
        obtain ⟨cur, hfind⟩ := hkept.record hcur
        simp only [hcur, hfind] at hstep
        obtain rfl := Option.some.inj hstep
        have hg : Gives m.lib t .yield cur := ⟨hcur, hfind, nofun⟩
        exact ⟨m.lib, hkept.makeScheduler,
          .made hg rfl (.handler hcode) rfl fun _ => hlive t hcur⟩

/-- Every calm step leads from phase to phase. -/
theorem Settled.step {a : Action} (h : Settled m) (hcalm : Calm a m)
    (hstep : step b a m = some m') : Settled m' := by
  unfold Alarm.step at hstep
  cases a with
  | create func malloc n => exact h.call .creates hstep
  | yield => exact h.call .yields hstep
  | join tid => exact h.call .joins hstep
  | ret => exact h.ret hstep
  | next o => exact h.next hstep
  | alarm => exact h.alarm hcalm hstep

/-- `thread_libinit` leaves main behind its `getcontext`. -/
theorem settled_libinit (blocked : Bool) (stale : Slot → Context) :
    Settled (libinit blocked stale) := by
  refine ⟨Thread.libinit .priority, ⟨wf_libinit .priority,
    (full_libinit .priority).toInv, ?_, nofun, rfl⟩, .code rfl .libinit nofun⟩
  intro x hx
  exact absurd rfl hx

-- ============================================================ the result

/-- No phase has touched the ready queues. -/
theorem Phase.readyIds_eq (h : Phase s m) : readyIds m.lib = readyIds s := by
  cases h with
  | code hlib _ _ | creating hlib _ _ _ | idle hlib _ _ _ | returned hlib _ _
  | enteredByMain hlib _ _ | leaving hlib _ _ | chosen hlib _ _ _ _ =>
      rw [hlib]
  | marked _ hlib _ _ => rw [hlib, readyIds_onThread]
  | made _ hlib _ _ _ | entered _ hlib _ _ =>
      rw [hlib, given, readyIds_log, readyIds_onThread]
  | unmanned hlib _ =>
      rw [hlib]
      rfl

theorem Code.not_entered {e : Option Int} (h : Code e fs) :
    fs.head? ≠ some (.scheduler .entered) := by
  intro he
  cases h with
  | call hf =>
      obtain rfl := Option.some.inj he
      cases hf
  | user | start | back _ | libinit => cases he

theorem Marked.not_entered (h : Marked t r fs) :
    fs.head? ≠ some (.scheduler .entered) := by
  intro he
  cases h with
  | yield | wrapper => cases he

theorem Made.not_entered (h : Made t r fs) :
    fs.head? ≠ some (.scheduler .entered) := by
  intro he
  cases h with
  | yield | join | handler _ | wrapper => cases he

/-- `my_scheduler` is entered in two ways. -/
theorem Phase.of_entered (h : Phase s m) (he : Entered m) :
    (m.lib = s ∧ s.currentActive = none)
    ∨ ∃ t r cur, Gives s t r cur ∧ m.lib = given r t cur s := by
  unfold Entered at he
  cases h with
  | entered hg hlib _ _ => exact .inr ⟨_, _, _, hg, hlib⟩
  | enteredByMain hlib hcur _ => exact .inl ⟨hlib, hcur⟩
  | code _ hcode _ => exact absurd he hcode.not_entered
  | marked _ _ hmarked _ => exact absurd he hmarked.not_entered
  | made _ _ hmade _ _ => exact absurd he hmade.not_entered
  | creating _ hfr _ _ | idle _ _ hfr _ | returned _ _ hfr
  | unmanned _ hfr | leaving _ _ hfr =>
      rw [hfr] at he
      cases he
  | chosen _ _ hp hfr _ =>
      rw [hfr] at he
      rcases hp with rfl | rfl
      · cases he
      · cases he

/-- Whoever is in some phase is orderly. -/
theorem Settled.orderly (h : Settled m) (b : Build) : Orderly b m := by
  obtain ⟨s, hkept, hphase⟩ := h
  constructor
  case status =>
    intro he t ht
    rcases hphase.of_entered he with ⟨hlib, hcur⟩ | ⟨u, r, cur, hg, hlib⟩
    · rw [hlib, hcur] at ht
      cases ht
    · rw [hlib] at ht ⊢
      obtain rfl : u = t := Option.some.inj (hg.current.symm.trans ht)
      exact ⟨r.mark cur, hg.record_marked, r.mark_status cur⟩
  case assigned =>
    intro he o hnone
    have hstuck : Thread.myScheduler b o m.lib = none := by
      unfold Thread.myScheduler
      rw [hnone]
    rcases hphase.of_entered he with ⟨hlib, hcur⟩ | ⟨u, r, cur, hg, hlib⟩
    · obtain ⟨s', hs, -⟩ := hkept.main_switch hcur b o
      rw [hlib, hs] at hstuck
      cases hstuck
    · obtain ⟨s', w, hs, -⟩ := hg.switch hkept b o
      rw [hlib, hs] at hstuck
      cases hstuck
  case never_back =>
    rw [hphase.readyIds_eq]
    exact hkept.never_back

/-- Under PRIORITY, in every run in which `SIGALRM` is delivered only while
`current_active` is NULL or at a quiet point of the thread, `my_scheduler`
is entered with a status it has a branch for, `nextID` is assigned before
it is used, and nobody whose function has returned is in a ready queue. -/
theorem orderly_while_calm (h : Lib.Reach (machine b) Calm m) :
    Orderly b m := by
  have hsettled : Settled m := by
    refine h.invariant ?_ fun a m m' hm hcalm hstep => hm.step hcalm hstep
    rintro m ⟨blocked, stale, rfl⟩
    exact settled_libinit blocked stale
  exact hsettled.orderly b

/-- Main creates two threads and yields, and the first one runs. -/
def firstThread : List Action :=
  [.next zero, .create true true (-1), .next zero, .next zero, .next zero,
    .next zero, .next zero, .create true true (-1), .next zero, .next zero,
    .next zero, .next zero, .next zero, .yield, .next zero, .next zero,
    .next zero, .next zero, .next zero, .next zero, .next zero]

/-- The theorem where the alarm interrupts the first thread's own code. -/
theorem orderly_while_calm_interrupted : ∃ m,
    Lib.run (machine .plain) (firstThread ++ [.alarm, .next zero])
        (libinit false fun _ => ⟨[], false⟩) = some m
      ∧ Entered m ∧ m.lib.currentActive = some 1 ∧ Orderly .plain m := by
  let after := (Lib.run (machine .plain)
    (firstThread ++ [.alarm, .next zero])
    (libinit false fun _ => ⟨[], false⟩)).get (by decide +kernel)
  have hafter : Lib.Reach (machine .plain) Calm after :=
    ⟨_, ⟨_, _, rfl⟩, Lib.run_steps _ (by decide +kernel)
      (Option.some_get _).symm⟩
  exact ⟨after, (Option.some_get _).symm, by decide +kernel,
    by decide +kernel, orderly_while_calm hafter⟩

/-- An alarm in `thread_wrapper` behind the write of FINISHED: the handler
writes YIELD and `my_scheduler` puts the thread back. -/
theorem returned_ready_again :
    ¬∀ m, Lib.Reach (machine .plain) Lib.Anything m → Orderly .plain m := by
  intro hall
  let calls := firstThread ++ [.ret, .next zero, .alarm, .next zero,
    .next zero]
  let after := (Lib.run (machine .plain) calls
    (libinit false fun _ => ⟨[], false⟩)).get (by decide +kernel)
  have hback : 1 ∈ after.returned ∧ 1 ∈ readyIds after.lib := by
    decide +kernel
  have hafter : Lib.Reach (machine .plain) Lib.Anything after :=
    Lib.reach_of_run calls ⟨_, _, rfl⟩ (Option.some_get _).symm
  exact (hall after hafter).never_back 1 hback.1 hback.2

/-- An alarm in `thread_yield` behind the write of YIELD: the thread goes
on from there as SCHEDULED, for which `my_scheduler` has no branch. -/
example : ∃ m,
    Lib.run (machine .plain) (firstThread ++ [.yield, .next zero, .alarm,
        .next zero, .next zero, .next zero, .next zero, .next zero, .yield,
        .next zero, .next zero, .next zero, .next zero, .next zero,
        .next zero, .next zero, .next zero, .next zero])
        (libinit false fun _ => ⟨[], false⟩) = some m
      ∧ Entered m ∧ nextThread .plain zero m.lib = none :=
  ⟨_, (Option.some_get (by decide +kernel)).symm, by decide +kernel,
    by decide +kernel⟩

end OperatingSystem.Thread.Alarm
