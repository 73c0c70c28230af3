/-
What a recall selects in a whole session, for any `HISTSIZE`.

As long as no number wraps, what hangs between the sentinels are entries, and
`numHist` is their number as far as an `unsigned int` can tell: `Counted` holds
between any two rounds. In such a state the recall does what it is asked to,
except for a number that wraps; it takes `2^31` entries for there to be one.
-/
import OperatingSystem.Shell.Window

namespace OperatingSystem.Shell

open Lib (Anything Reach i32)

variable {s s' t : State} {L : List Nat} {p v : Nat} {HISTSIZE : Int}
  {atoi : Token → Int} {i : Input} {word : Token} {c : Command}

/-- No line of the session asks for a number that wraps. -/
def NoWrap (atoi : Token → Int) (i : Input) (s : State) : Prop :=
  ∀ word rest forks, i = .line (word :: rest) forks →
    ¬Wraps atoi word s.numHist

/-- What a line that begins with `word` is to recall from the history `L`: the
entry it asks for, and if there is none, nothing changes. -/
structure Recalls (HISTSIZE : Int) (atoi : Token → Int) (word : Token)
    (s : State) (L : List Nat) : Prop where
  entry : ∀ p, asked atoi word s.numHist L = some p →
    p ∈ L ∧ toBeCalled atoi word s = some p
  nothing : asked atoi word s.numHist L = none →
    toBeCalled atoi word s = some NULL ∧ ∀ rest forks, ∃ s',
      step HISTSIZE atoi (.line (word :: rest) forks) s = some s'
        ∧ SameList s s' ∧ s'.exited = false

-- ============================================================= the rounds

theorem u32_le (n : Nat) : u32 n ≤ n := by
  unfold u32
  omega

theorem Counted.le (h : Counted s L) : s.numHist ≤ L.length := by
  rw [h.count]
  exact u32_le _

/-- What holds between two rounds. -/
def Kept (s : State) : Prop := s.exited = false → ∃ L, Counted s L

theorem counted_start (head tail : Int × Int) :
    Counted (State.start head tail) [] := by
  obtain ⟨L, hL⟩ := going_start 0 head tail rfl
  have hlen : L.length = 0 := hL.count.symm
  obtain rfl := List.length_eq_zero_iff.mp hlen
  exact ⟨hL.toListing, rfl, hL.past⟩

/-- A round without a number that wraps. -/
theorem Kept.step (h : Kept s) (hok : NoWrap atoi i s)
    (hrun : Shell.step HISTSIZE atoi i s = some s') : Kept s' := by
  intro hexited
  have hlive : s.exited = false := by
    cases hexit : s.exited with
    | false => rfl
    | true =>
        unfold Shell.step at hrun
        rw [if_pos hexit] at hrun
        cases hrun
  obtain ⟨L, hL⟩ := h hlive
  have hlist : ∀ word rest forks, i = .line (word :: rest) forks →
      ∃ p, toBeCalled atoi word s = some p ∧ (p = NULL ∨ p ∈ L) :=
    fun word rest forks hi => toBeCalled_listed hL.toListing hL.le
      (hok word rest forks hi)
  cases hc : executes atoi i s with
  | none =>
      exact ⟨L, hL.same (sameList_step hc hlist (fun p hp => hL.mem_alive hp)
        hrun hexited)⟩
  | some c =>
      obtain ⟨hnum, hargs, hcommand⟩ := hL.executes_entry hlist hc
      obtain ⟨t, L', hadd, ht, -⟩ := (hL.same (sameList_heard atoi i s)).append
        HISTSIZE hnum hargs hcommand
      obtain ⟨t', hadd', hsame⟩ := append_of_step hc hrun
      obtain rfl := Option.some.inj (hadd.symm.trans hadd')
      exact ⟨_, ht.same (hsame hexited)⟩

theorem kept_reachable (h : Reach (shell HISTSIZE atoi) (NoWrap atoi) s) :
    Kept s := by
  refine h.invariant ?_ fun i t t' ht hok hrun => ht.step hok hrun
  rintro t ⟨head, tail, rfl⟩
  exact fun _ => ⟨[], counted_start head tail⟩

-- ============================================================== a recall

/-- A word that begins with `!` is never executed as it is typed. -/
theorem checkHist_bang (hword : word.head? = some '!') :
    checkHist atoi word ≠ 0 := by
  obtain ⟨rest, rfl⟩ := List.head?_eq_some_iff.mp hword
  have hbang : isBeginWith ('!' :: rest) ['!'] = 1 :=
    (isBeginWith_iff (List.cons_ne_nil _ _)).mpr (by simp)
  unfold checkHist
  split_ifs <;> simp_all

/-- A line that recalls nothing. -/
theorem step_rejected (hlive : s.exited = false)
    (hword : word.head? = some '!') (hfind : toBeCalled atoi word s = some NULL)
    (rest : List Token) (forks : Bool) : ∃ s',
      step HISTSIZE atoi (.line (word :: rest) forks) s = some s'
        ∧ SameList s s' ∧ s'.exited = false := by
  have hread : (readLine (word :: rest) s).exited = false := hlive
  have hsame : SameList s (readLine (word :: rest) s) :=
    ⟨rfl, rfl, rfl, Nat.le_add_right _ _, rfl, fun _ h => h⟩
  refine ⟨dropLine (readLine (word :: rest) s), ?_,
    hsame.trans (sameList_dropLine _), ?_⟩
  · unfold step
    rw [if_neg (by rw [hlive]; exact Bool.false_ne_true)]
    show dispatch HISTSIZE atoi (word :: rest) word forks _ = _
    unfold dispatch
    rw [if_neg (checkHist_bang hword), toBeCalled_readLine, hfind,
      Option.bind_eq_bind, Option.bind_some, recallEntry,
      if_neg (not_not.mpr rfl), Option.bind_eq_bind, Option.bind_some, hread,
      if_neg Bool.false_ne_true]
  · unfold dropLine State.freeLine State.freeArgs
    split_ifs <;> exact hread

/-- A recall does what it is asked to if and only if the number does not
wrap. -/
theorem Counted.recalls_iff (h : Counted s L) (hlive : s.exited = false)
    (hword : word.head? = some '!') :
    Recalls HISTSIZE atoi word s L ↔ ¬Wraps atoi word s.numHist := by
  constructor
  · intro hr hw
    have hnone : asked atoi word s.numHist L = none := by
      obtain ⟨e, n, hreq, hneg, -⟩ := hw
      unfold asked
      rw [hreq]
      cases e with
      | oldest => exact if_neg fun hin => by omega
      | newest => exact if_neg fun hin => by omega
    have hnull := (hr.nothing hnone).1
    rcases toBeCalled_wraps hw with hfind | hfind
    · exact h.head_alive.1 (Option.some.inj (hfind.symm.trans hnull))
    · exact h.tail_alive.1 (Option.some.inj (hfind.symm.trans hnull))
  · intro hok
    have hfind := toBeCalled_asked h.toListing h.le hok
    constructor
    case entry =>
      intro p hp
      rw [hp] at hfind
      exact ⟨asked_mem hp, hfind⟩
    case nothing =>
      intro hnone
      rw [hnone] at hfind
      exact ⟨hfind, step_rejected hlive hword hfind⟩

/-- There is such an entry exactly for the numbers up to `numHist`. -/
theorem Counted.asked_isSome (h : Counted s L) {e : End} {n : Int}
    (hreq : request atoi word = some (e, n)) :
    (asked atoi word s.numHist L).isSome ↔ 1 ≤ n ∧ n ≤ s.numHist := by
  unfold asked
  rw [hreq]
  cases e with
  | oldest => exact nth_isSome h.le
  | newest => exact nth_isSome (by rw [List.length_reverse]; exact h.le)

/-- In a session in which no number has wrapped the history is a list of
entries that `numHist` counts. A recall selects the entry it asks for, which is
there for the numbers from 1 to `numHist`, or changes nothing if there is none,
if and only if its own number does not wrap. -/
theorem recall_selects_iff
    (hreach : Reach (shell HISTSIZE atoi) (NoWrap atoi) s)
    (hlive : s.exited = false) : ∃ L, Listing s L ∧ s.numHist = u32 L.length
      ∧ (∀ word e n, request atoi word = some (e, n) →
        ((asked atoi word s.numHist L).isSome ↔ 1 ≤ n ∧ n ≤ s.numHist))
      ∧ ∀ word : Token, word.head? = some '!' →
        (Recalls HISTSIZE atoi word s L ↔ ¬Wraps atoi word s.numHist) := by
  obtain ⟨L, hL⟩ := kept_reachable hreach hlive
  exact ⟨L, hL.toListing, hL.count, fun _ _ _ hreq => hL.asked_isSome hreq,
    fun _ hword => hL.recalls_iff hlive hword⟩

/-- Two commands, and `!!` recalls the second one. -/
theorem recall_selects_iff_newest : ∃ s L,
    Reach (shell 5 fun _ => 0) (NoWrap fun _ => 0) s ∧ Listing s L
      ∧ Recalls 5 (fun _ => 0) ['!', '!'] s L := by
  let s₀ := State.start (0, 0) (0, 0)
  let s₁ := ((shell 5 fun _ => 0).step (.line [['a']] true) s₀).get
    (by decide +kernel)
  let s₂ := ((shell 5 fun _ => 0).step (.line [['b']] true) s₁).get
    (by decide +kernel)
  have hnum₁ : s₁.numHist = 1 := by decide +kernel
  have hnum₂ : s₂.numHist = 2 := by decide +kernel
  have hsmall {s : State} {i : Input} (hs : s.numHist < 2147483648) :
      NoWrap (fun _ => 0) i s := fun _ _ _ _ => not_wraps hs
  have h₀ : Reach (shell 5 fun _ => 0) (NoWrap fun _ => 0) s₀ :=
    ⟨s₀, ⟨_, _, rfl⟩, .refl s₀⟩
  have h₁ : Reach (shell 5 fun _ => 0) (NoWrap fun _ => 0) s₁ :=
    h₀.step (hsmall (by decide)) (Option.some_get _).symm
  have h₂ : Reach (shell 5 fun _ => 0) (NoWrap fun _ => 0) s₂ :=
    h₁.step (hsmall (by rw [hnum₁]; decide)) (Option.some_get _).symm
  obtain ⟨L, hL, -, -, hiff⟩ := recall_selects_iff h₂ (by decide +kernel)
  refine ⟨s₂, L, h₂, hL, (hiff ['!', '!'] rfl).mpr (not_wraps ?_)⟩
  rw [hnum₂]
  decide

-- ======================================================= a number that wraps

theorem exited_linkTail (hrun : linkTail p s = some s') :
    s'.exited = s.exited := by
  have hnext {s s' : State} {p v : Nat} (hrun : s.setNext p v = some s') :
      s'.exited = s.exited := by
    obtain ⟨r, -, rfl⟩ := Option.map_eq_some_iff.mp hrun
    rfl
  have hprev {s s' : State} {p v : Nat} (hrun : s.setPrev p v = some s') :
      s'.exited = s.exited := by
    obtain ⟨r, -, rfl⟩ := Option.map_eq_some_iff.mp hrun
    rfl
  unfold linkTail at hrun
  obtain ⟨r, -, hrun⟩ := Option.bind_eq_some_iff.mp hrun
  obtain ⟨s₁, h₁, hrun⟩ := Option.bind_eq_some_iff.mp hrun
  obtain ⟨s₂, h₂, hrun⟩ := Option.bind_eq_some_iff.mp hrun
  obtain ⟨s₃, h₃, hrun⟩ := Option.bind_eq_some_iff.mp hrun
  obtain ⟨s₄, h₄, hrun⟩ := Option.bind_eq_some_iff.mp hrun
  obtain rfl := Option.some.inj hrun
  show s₄.exited = s.exited
  rw [hprev h₄, hnext h₃, hprev h₂, hnext h₁]

/-- Where there is room, appending a command does nothing but link it. -/
theorem exited_append (hroom : s.numHist ≤ u32 HISTSIZE)
    (hrun : append HISTSIZE c s = some t) : t.exited = s.exited := by
  unfold append at hrun
  dsimp only at hrun
  unfold addToTail at hrun
  dsimp only at hrun
  have hnum : (createNode c.command c.args c.numArg c.commandId s).2.numHist
      = s.numHist := rfl
  rw [hnum, if_pos hroom, Option.bind_eq_bind, Option.bind_some] at hrun
  obtain ⟨s₁, hlink, hrun⟩ := Option.bind_eq_some_iff.mp hrun
  obtain rfl := Option.some.inj hrun
  have hsame := exited_linkTail hlink
  exact hsame

/-- More than one word is for a child to execute. -/
theorem callChild_words (s : State) {cargc : Nat} (argv : Nat)
    (h : cargc ≠ 1) :
    ∃ s', callChild true cargc argv s = some s' ∧ s'.exited = s.exited
      ∧ SameList s s' := by
  unfold callChild
  rw [if_neg h, Option.bind_eq_bind, Option.bind_some,
    if_neg (fun hone => h hone.1), if_neg (fun hone => h hone.1), if_pos rfl]
  refine ⟨_, rfl, ?_⟩
  cases hread : s.readArgs argv with
  | none => exact ⟨rfl, .refl s⟩
  | some s' =>
      refine ⟨?_, sameList_readArgs hread⟩
      unfold State.readArgs at hread
      split at hread
      case isTrue => cases hread
      case isFalse =>
        cases hread
        rfl

/-- A line of two words, where there is room for it. -/
theorem Counted.enter_words (command args : Nat) (id : Int) (h : Counted s L)
    (hargs : args ≠ NULL) (hcommand : command ≠ NULL)
    (hroom : s.numHist ≤ u32 HISTSIZE) : ∃ s' L',
      enter HISTSIZE true command args 2 id s = some s'
        ∧ s'.exited = s.exited ∧ Counted s' L' ∧ L'.length = L.length + 1 := by
  obtain ⟨t, L', hadd, ht, hL', hlast, -⟩ := h.append HISTSIZE
    (c := ⟨2, args, command, id⟩) (show 2 ≠ 0 by decide) hargs hcommand
  rw [if_pos hroom] at hL'
  subst hL'
  have hadd' : addToTail HISTSIZE s.brk (createNode command args 2 id s).2
      = some t := hadd
  have hload : t.load s.brk = some (t.mem.record s.brk) :=
    (ht.mem_alive (by simp)).load
  have htwo : (t.mem.record s.brk).numArg = 2 := congrArg Command.numArg hlast
  obtain ⟨s', hcall, hexit, hsame⟩ := callChild_words t
    (t.mem.record s.brk).args (show 2 ≠ 1 by decide)
  refine ⟨s', _, ?_, hexit.trans (exited_append hroom hadd), ht.same hsame,
    by simp⟩
  have hpair : createNode command args 2 id s
      = (s.brk, (createNode command args 2 id s).2) := rfl
  unfold enter
  rw [hpair]
  simp only [Option.bind_eq_bind]
  rw [hadd', Option.bind_some, hload, Option.bind_some, htwo]
  exact hcall

/-- So histories get as long as `HISTSIZE` lets them. -/
theorem reach_long (HISTSIZE : Int) (atoi : Token → Int) (k : Nat)
    (hk : k ≤ u32 HISTSIZE + 1) : ∃ s L,
      Reach (shell HISTSIZE atoi) Anything s ∧ s.exited = false
        ∧ Counted s L ∧ L.length = k := by
  induction k with
  | zero =>
      exact ⟨State.start (0, 0) (0, 0), [], ⟨_, ⟨_, _, rfl⟩, .refl _⟩, rfl,
        counted_start _ _, rfl⟩
  | succ k ih =>
      obtain ⟨s, L, hreach, hlive, hL, hlen⟩ := ih (by omega)
      let typed : List Token := [['a'], ['b']]
      have hheard : SameList s { readLine typed s with
          commandId := i32 (s.commandId + 1) } :=
        ⟨rfl, rfl, rfl, Nat.le_add_right _ _, rfl, fun _ h => h⟩
      have hbrk : s.brk ≠ NULL := Nat.ne_of_gt
        (Nat.zero_lt_of_lt (hL.known _ (mem_spine.mpr (.inl rfl))))
      have hroom : s.numHist ≤ u32 HISTSIZE := hL.le.trans (by omega)
      obtain ⟨s', L', henter, hexit, hL', hlen'⟩ := (hL.same hheard).enter_words
        s.brk (s.brk + 1) s.commandId (Nat.succ_ne_zero _) hbrk hroom
      have hstep : (shell HISTSIZE atoi).step (.line typed true) s
          = some s' := by
        show step HISTSIZE atoi (.line typed true) s = some s'
        unfold step
        rw [if_neg (by rw [hlive]; exact Bool.false_ne_true)]
        show dispatch HISTSIZE atoi typed ['a'] true (readLine typed s) = some s'
        unfold dispatch
        rw [if_pos (show checkHist atoi ['a'] = 0 from rfl)]
        exact henter
      exact ⟨s', L', hreach.step trivial hstep, hexit.trans hlive, hL',
        by rw [hlen', hlen]⟩

/-- `-2147483648`. -/
def lowest : Token := ['-', '2', '1', '4', '7', '4', '8', '3', '6', '4', '8']

/-- In a history of `2^31` entries, `!--2147483648` recalls the sentinel at
its end. -/
theorem sentinel_recalled : ∃ s L,
    Reach (shell 2147483647 fun t => if t = lowest then -2147483648 else 0)
        Anything s
      ∧ s.exited = false ∧ Listing s L ∧ s.numHist = L.length
      ∧ L.length = 2147483648
      ∧ toBeCalled (fun t => if t = lowest then -2147483648 else 0)
        ('!' :: '-' :: lowest) s = some s.mem.tail
      ∧ ¬Recalls 2147483647 (fun t => if t = lowest then -2147483648 else 0)
        ('!' :: '-' :: lowest) s L := by
  generalize hatoi : (fun t => if t = lowest then -2147483648 else 0) = atoi
  obtain ⟨s, L, hreach, hlive, hL, hlen⟩ :=
    reach_long 2147483647 atoi 2147483648 (by decide)
  have hnum : s.numHist = 2147483648 := by
    rw [hL.count, hlen]
    rfl
  have hreq : request atoi ('!' :: '-' :: lowest)
      = some (.newest, -2147483648) := by
    rw [← hatoi]
    decide +kernel
  have hw : Wraps atoi ('!' :: '-' :: lowest) s.numHist :=
    ⟨_, _, hreq, by decide, by rw [hnum]; decide⟩
  refine ⟨s, L, hreach, hlive, hL.toListing, hnum.trans hlen.symm, hlen, ?_,
    fun hr => (hL.recalls_iff hlive rfl).mp hr hw⟩
  rw [toBeCalled_request, hreq]
  simp only
  rw [if_neg (by decide), findLastN, if_neg (by rw [hnum]; decide),
    if_neg (by decide)]
  rfl

end OperatingSystem.Shell
