/-
The shell with a history as its user thinks of it.

# The ideal shell

Commands are words, and the history is a list of them: `!n` stands for the
`n`-th of it, `!-n` and `!!` for one counted from its end, and what a line
stands for is carried out and becomes the newest command. There are no
records, links, numbers or buffers, and nothing is freed (`Ideal.step`).

# The refinement

`observed` is the program with the words its children were started with. As
long as the lines meet `Due`, it and the ideal shell go the same way: they
start the same children, are left at the same line, and the list between the
sentinels shows the ideal history (`shell_refines`). What carries it is
`Tracks`: `Window` ties the records to the commands so far, and the words of a
command stay where they were read to, since nothing but `readLine` writes an
`args` array (`append_blind`).
-/
import OperatingSystem.Lib.Blind
import OperatingSystem.Shell.Window

namespace OperatingSystem.Shell

open Lib (Along Blind System)

variable {s s' t : State} {L : List Nat} {p : Nat} {HISTSIZE : Int}
  {atoi : Token → Int} {word : Token} {rest words : List Token}
  {c : Command} {forks : Bool}

-- ========================================================= the ideal shell

/-- The commands carried out so far, oldest first, those a child was started
for, and whether the shell has been left. -/
structure Ideal where
  done : List (List Token)
  children : List (List Token)
  exited : Bool
  deriving DecidableEq, Repr

def Ideal.start : Ideal := ⟨[], [], false⟩

/-- What can be recalled: the program keeps one command more than
`HISTSIZE`. -/
def Ideal.history (HISTSIZE : Int) (a : Ideal) : List (List Token) :=
  a.done.rtake (u32 HISTSIZE + 1)

/-- The `n`-th of a list. -/
def nthWords (history : List (List Token)) (n : Int) : Option (List Token) :=
  if 1 ≤ n then history[n.toNat - 1]? else none

/-- What a line stands for. -/
def command (atoi : Token → Int) (history : List (List Token)) (word : Token)
    (rest : List Token) : Option (List Token) :=
  match request atoi word with
  | none => some (word :: rest)
  | some (.oldest, n) => nthWords history n
  | some (.newest, n) => nthWords history.reverse n

/-- A command is carried out. -/
def Ideal.execute (forks : Bool) (words : List Token) (a : Ideal) : Ideal :=
  let a := { a with done := a.done ++ [words] }
  if words = [exitWord] then { a with exited := true }
  else if words = [historyWord] then a
  else if forks then { a with children := a.children ++ [words] }
  else { a with exited := true }

/-- What an input does. -/
def Ideal.step (HISTSIZE : Int) (atoi : Token → Int) (i : Input) (a : Ideal) :
    Option Ideal :=
  if a.exited then none
  else
    match i with
    | .eof => some { a with exited := true }
    | .line [] _ => some a
    | .line (word :: rest) forks =>
        match command atoi (a.history HISTSIZE) word rest with
        | some words => some (a.execute forks words)
        | none => some a

def ideal (HISTSIZE : Int) (atoi : Token → Int) : System Ideal Input where
  start a := a = .start
  step := Ideal.step HISTSIZE atoi

-- ============================================================ the children

/-- The words of a command. -/
def State.wordsOf (s : State) (c : Command) : List Token := (s.argv c.args).words

/-- The words `callChild` starts a child with. -/
def childWords (forks : Bool) (c : Command) (s : State) : Option (List Token) :=
  let first := (s.wordsOf c).head?
  if c.numArg = 1 ∧ first = some exitWord then none
  else if c.numArg = 1 ∧ first = some historyWord then none
  else if forks then some (s.wordsOf c) else none

/-- The child a round starts. -/
def child (HISTSIZE : Int) (atoi : Token → Int) (i : Input) (s : State) :
    Option (List Token) :=
  match i with
  | .eof => none
  | .line _ forks => do
      let c ← executes atoi i s
      let s ← append HISTSIZE c (heard atoi i s)
      childWords forks c s

/-- The shell, with the words its children were started with. -/
def observed (HISTSIZE : Int) (atoi : Token → Int) :
    System (State × List (List Token)) Input where
  start x := (shell HISTSIZE atoi).start x.1 ∧ x.2 = []
  step i x := (step HISTSIZE atoi i x.1).map fun s =>
    (s, x.2 ++ (child HISTSIZE atoi i x.1).toList)

-- ================================================== what entering changes

/-- Other arrays, and another answer to whether the shell has been left. -/
def State.outside (argv : Nat → Argv) (exited : Bool) (s : State) : State :=
  { s with argv, exited }

section Blind

variable (argv : Nat → Argv) (exited : Bool)

/-- The history does not depend on either. -/
abbrev Outside (op : State → Option State) : Prop :=
  Blind (State.outside argv exited) (State.outside argv exited) op

variable {argv exited}

/-- A write to a record. -/
theorem edit_blind (p : State → Nat) (edit : State → HistCommand → HistCommand)
    (hp : ∀ s, p (s.outside argv exited) = p s)
    (hedit : ∀ s, edit (s.outside argv exited) = edit s) :
    Outside argv exited fun s =>
      (s.load (p s)).map fun r => s.setRecord (p s) (edit s r) := by
  intro s
  dsimp only
  rw [hp, hedit]
  have hload : (s.outside argv exited).load (p s) = s.load (p s) := rfl
  rw [hload]
  cases s.load (p s) <;> rfl

theorem setNext_blind {p v : State → Nat}
    (hp : ∀ s, p (s.outside argv exited) = p s)
    (hv : ∀ s, v (s.outside argv exited) = v s) :
    Outside argv exited fun s => s.setNext (p s) (v s) :=
  edit_blind p (fun s r => { r with next := v s }) hp fun s => by
    rw [hv]

theorem setPrev_blind {p v : State → Nat}
    (hp : ∀ s, p (s.outside argv exited) = p s)
    (hv : ∀ s, v (s.outside argv exited) = v s) :
    Outside argv exited fun s => s.setPrev (p s) (v s) :=
  edit_blind p (fun s r => { r with prev := v s }) hp fun s => by
    rw [hv]

theorem setDelete_blind (p : Nat) (v : Int) :
    Outside argv exited fun s => s.setDelete p v :=
  edit_blind (fun _ => p) (fun _ r => { r with delete := v })
    (fun _ => rfl) fun _ => rfl

theorem markDeleted_blind (id : Int) : ∀ (fuel temp : Nat),
    Outside argv exited (markDeleted id fuel temp)
  | 0, _ => .none
  | fuel + 1, temp => by
      show Outside argv exited fun s => (s.load temp).bind fun r =>
        if r.numArg ≠ 0 then
          (if r.commandId = id then s.setDelete temp DELETED else some s).bind
            (markDeleted id fuel r.next)
        else some s
      exact .read (fun _ => rfl) fun r => .ite (fun _ => Iff.rfl)
        (.bind (.ite (fun _ => Iff.rfl) (setDelete_blind temp DELETED)
          (.pure fun _ => rfl)) (markDeleted_blind id fuel r.next))
        (.pure fun _ => rfl)

theorem outside_freeArgs (s : State) (p : Nat) :
    (s.outside argv exited).freeArgs p = (s.freeArgs p).outside argv exited := by
  unfold State.freeArgs
  split <;> rfl

theorem outside_freeLine (s : State) (p : Nat) :
    (s.outside argv exited).freeLine p = (s.freeLine p).outside argv exited := by
  unfold State.freeLine
  split <;> rfl

/-- A record goes with its buffers. -/
theorem outside_destroyed (s : State) (args command p : Nat) :
    (((s.outside argv exited).freeArgs args).freeLine command).free (.record p)
      = (((s.freeArgs args).freeLine command).free (.record p)).outside argv
        exited := by
  rw [outside_freeArgs, outside_freeLine]
  rfl

theorem destroyNode_blind (p : Nat) :
    Outside argv exited fun s => destroyNode p s := by
  show Outside argv exited fun s => (s.load p).bind fun r =>
    if r.delete = DELETED then some (s.free (.record p))
    else (s.load s.mem.head).bind fun head =>
      (markDeleted r.commandId s.brk head.next s).bind fun s₁ =>
        some (((s₁.freeArgs r.args).freeLine r.command).free (.record p))
  refine .read (fun _ => rfl) fun r => ?_
  refine .ite (fun _ => Iff.rfl) (.pure fun _ => rfl) ?_
  refine .read (fun _ => rfl) fun head => ?_
  exact .bind (fun s => markDeleted_blind r.commandId s.brk head.next s)
    (.pure fun s => outside_destroyed s r.args r.command p)

theorem sharesId_outside (s : State) (id : Int) : ∀ (fuel temp : Nat),
    sharesId (s.outside argv exited) id fuel temp = sharesId s id fuel temp
  | 0, _ => rfl
  | fuel + 1, temp => by
      unfold sharesId
      rw [show (s.outside argv exited).load temp = s.load temp from rfl]
      simp only [sharesId_outside s id fuel]

/-- The oldest record goes, with its buffers or without. -/
theorem outside_evicted (s : State) (flag : Bool) (args command p : Nat) :
    (if flag = true then (s.outside argv exited).free (.record p)
      else (((s.outside argv exited).freeArgs args).freeLine command).free
        (.record p))
    = (if flag = true then s.free (.record p)
      else ((s.freeArgs args).freeLine command).free (.record p)).outside
        argv exited := by
  split
  case isTrue => rfl
  case isFalse => exact outside_destroyed s args command p

theorem popFront_blind : Outside argv exited popFront := by
  show Outside argv exited fun s => (s.load s.mem.head).bind fun head =>
    if head.next = NULL then some s
    else (s.load head.next).bind fun first =>
      if first.next = NULL then
        (destroyNode head.next s).bind fun s =>
          (s.setNext s.mem.head s.mem.tail).bind fun s =>
            (s.setPrev s.mem.tail s.mem.head).bind fun s =>
              some { s with numHist := u32 (s.numHist - 1) }
      else
        (s.setNext s.mem.head first.next).bind fun s =>
          (s.setPrev first.next s.mem.head).bind fun s =>
            (sharesId s first.commandId s.brk first.next).bind fun flag =>
              let s := if flag = true then s.free (.record head.next)
                else ((s.freeArgs first.args).freeLine first.command).free
                  (.record head.next)
              some { s with numHist := u32 (s.numHist - 1) }
  refine .read (fun _ => rfl) fun head => ?_
  refine .ite (fun _ => Iff.rfl) (.pure fun _ => rfl) ?_
  refine .read (fun _ => rfl) fun first => .ite (fun _ => Iff.rfl) ?_ ?_
  · refine .bind (destroyNode_blind head.next) ?_
    refine .bind (setNext_blind (fun _ => rfl) fun _ => rfl) ?_
    exact .bind (setPrev_blind (fun _ => rfl) fun _ => rfl) (.pure fun _ => rfl)
  · refine .bind (setNext_blind (fun _ => rfl) fun _ => rfl) ?_
    refine .bind (setPrev_blind (fun _ => rfl) fun _ => rfl) ?_
    refine .read (fun s => sharesId_outside s _ _ _) fun flag => ?_
    intro s
    dsimp only
    rw [outside_evicted]
    rfl

theorem linkTail_blind (p : Nat) : Outside argv exited (linkTail p) := by
  show Outside argv exited fun s => (s.load s.mem.tail).bind fun tail =>
    (s.setNext tail.prev p).bind fun s =>
      (s.setPrev p tail.prev).bind fun s =>
        (s.setNext p s.mem.tail).bind fun s =>
          (s.setPrev s.mem.tail p).bind fun s =>
            some { s with numHist := u32 (s.numHist + 1) }
  refine .read (fun _ => rfl) fun tail => ?_
  refine .bind (setNext_blind (fun _ => rfl) fun _ => rfl) ?_
  refine .bind (setPrev_blind (fun _ => rfl) fun _ => rfl) ?_
  refine .bind (setNext_blind (fun _ => rfl) fun _ => rfl) ?_
  exact .bind (setPrev_blind (fun _ => rfl) fun _ => rfl) (.pure fun _ => rfl)

theorem addToTail_blind (HISTSIZE : Int) (p : Nat) :
    Outside argv exited (addToTail HISTSIZE p) := by
  show Outside argv exited fun s =>
    (if s.numHist ≤ u32 HISTSIZE then
      some { s with mem := { s.mem with toAdd := p } }
    else popFront { s with mem := { s.mem with toAdd := p } }).bind fun s =>
      (linkTail p s).bind fun s =>
        some { s with mem := { s.mem with toAdd := NULL } }
  refine .bind (.ite (fun _ => Iff.rfl) (.pure fun _ => rfl) ?_)
    (.bind (linkTail_blind p) (.pure fun _ => rfl))
  exact .comp (fun _ => rfl) popFront_blind

/-- Entering a command neither reads nor writes an `args` array, and does not
leave the shell. -/
theorem append_blind (HISTSIZE : Int) (c : Command) :
    Outside argv exited (append HISTSIZE c) := fun s =>
  addToTail_blind HISTSIZE s.brk
    (createNode c.command c.args c.numArg c.commandId s).2

end Blind

theorem append_outside (hrun : append HISTSIZE c s = some t) :
    t.argv = s.argv ∧ t.exited = s.exited := by
  have hfixed := (append_blind HISTSIZE c).fixed (s := s)
    (g := State.outside s.argv s.exited) rfl hrun
  rw [← hfixed]
  exact ⟨rfl, rfl⟩

-- ======================================================= carrying it out

theorem readArgs_keeps (hrun : s.readArgs p = some s') :
    s'.argv = s.argv ∧ s'.exited = s.exited := by
  unfold State.readArgs at hrun
  split at hrun
  case isTrue => cases hrun
  case isFalse =>
    obtain rfl := Option.some.inj hrun
    exact ⟨rfl, rfl⟩

theorem showFrom_keeps {fuel : Nat} (hrun : showFrom fuel p s = some s') :
    s'.argv = s.argv ∧ s'.exited = s.exited := by
  induction fuel generalizing p s with
  | zero => cases hrun
  | succ fuel ih =>
      unfold showFrom at hrun
      obtain ⟨r, -, hrun⟩ := Option.bind_eq_some_iff.mp hrun
      split at hrun
      case isTrue =>
        obtain ⟨s₁, hread, hrun⟩ := Option.bind_eq_some_iff.mp hrun
        obtain ⟨hargv, hexited⟩ := readArgs_keeps hread
        obtain ⟨hargv', hexited'⟩ := ih hrun
        exact ⟨hargv'.trans hargv, hexited'.trans hexited⟩
      case isFalse =>
        obtain rfl := Option.some.inj hrun
        exact ⟨rfl, rfl⟩

theorem showHistory_keeps (hrun : showHistory s = some s') :
    s'.argv = s.argv ∧ s'.exited = s.exited := by
  unfold showHistory at hrun
  obtain ⟨r, -, hrun⟩ := Option.bind_eq_some_iff.mp hrun
  split at hrun
  case isTrue =>
    obtain rfl := Option.some.inj hrun
    exact ⟨rfl, rfl⟩
  case isFalse => exact showFrom_keeps hrun

theorem dropLine_keeps (s : State) :
    (dropLine s).argv = s.argv ∧ (dropLine s).exited = s.exited
      ∧ (dropLine s).brk = s.brk := by
  unfold dropLine State.freeLine State.freeArgs
  split_ifs <;> exact ⟨rfl, rfl, rfl⟩

/-- `callChild` on a command of the history does what carrying out its words
does. -/
theorem callChild_ideal (a : Ideal) (ha : a.exited = false)
    (hlive : t.exited = false) (hnum : c.numArg = (t.wordsOf c).length)
    (hrun : callChild forks c.numArg c.args t = some s') :
    (a.execute forks (t.wordsOf c)).exited = s'.exited
      ∧ (a.execute forks (t.wordsOf c)).children
        = a.children ++ (childWords forks c t).toList
      ∧ (s'.exited = false → s'.argv = t.argv) := by
  unfold callChild at hrun
  simp only [Option.bind_eq_bind] at hrun
  obtain ⟨s₁, hread, hrun⟩ := Option.bind_eq_some_iff.mp hrun
  have hkeeps : s₁.argv = t.argv ∧ s₁.exited = t.exited := by
    split at hread
    case isTrue => exact readArgs_keeps hread
    case isFalse =>
      obtain rfl := Option.some.inj hread
      exact ⟨rfl, rfl⟩
  obtain ⟨hargv, hexited⟩ := hkeeps
  rw [hlive] at hexited
  rw [hargv] at hrun
  change (if c.numArg = 1 ∧ (t.wordsOf c).head? = some exitWord then _
    else if c.numArg = 1 ∧ (t.wordsOf c).head? = some historyWord then _
    else _) = some s' at hrun
  unfold Ideal.execute childWords
  simp only [hnum, single_iff] at hrun ⊢
  split at hrun
  case isTrue hexit =>
    obtain ⟨s₂, -, hrun⟩ := Option.bind_eq_some_iff.mp hrun
    obtain rfl := Option.some.inj hrun
    rw [if_pos hexit, if_pos hexit]
    exact ⟨rfl, (List.append_nil _).symm, nofun⟩
  case isFalse hexit =>
    rw [if_neg hexit, if_neg hexit]
    split at hrun
    case isTrue hhistory =>
      obtain ⟨hargv', hexited'⟩ := showHistory_keeps hrun
      rw [if_pos hhistory, if_pos hhistory]
      exact ⟨ha.trans (hexited'.trans hexited).symm, (List.append_nil _).symm,
        fun _ => hargv'.trans hargv⟩
    case isFalse hhistory =>
      rw [if_neg hhistory, if_neg hhistory]
      cases forks with
      | true =>
          obtain rfl := Option.some.inj hrun
          cases hread' : s₁.readArgs c.args with
          | none => exact ⟨ha.trans hexited.symm, rfl, fun _ => hargv⟩
          | some s₂ =>
              obtain ⟨hargv', hexited'⟩ := readArgs_keeps hread'
              exact ⟨ha.trans (hexited'.trans hexited).symm, rfl,
                fun _ => hargv'.trans hargv⟩
      | false =>
          obtain rfl := Option.some.inj hrun
          exact ⟨rfl, (List.append_nil _).symm, nofun⟩

-- =========================================================== the history

/-- The commands so far, and where their words are. -/
structure Remembers (s : State) (log : List Command)
    (done : List (List Token)) : Prop where
  words : done = log.map s.wordsOf
  known : ∀ c ∈ log, c.args < s.brk
  counted : ∀ c ∈ log, c.numArg = (s.wordsOf c).length

variable {log : List Command} {done : List (List Token)}

/-- No array but new ones is written. -/
theorem Remembers.later (h : Remembers s log done) (hbrk : s.brk ≤ s'.brk)
    (hargv : ∀ p < s.brk, s'.argv p = s.argv p) : Remembers s' log done := by
  have hsame : ∀ c ∈ log, s'.wordsOf c = s.wordsOf c := fun c hc =>
    congrArg Argv.words (hargv _ (h.known c hc))
  constructor
  case words =>
    rw [h.words]
    exact List.map_congr_left fun c hc => (hsame c hc).symm
  case known => exact fun c hc => (h.known c hc).trans_le hbrk
  case counted =>
    intro c hc
    rw [hsame c hc]
    exact h.counted c hc

theorem Remembers.snoc (h : Remembers s log done) (hargs : c.args < s.brk)
    (hnum : c.numArg = (s.wordsOf c).length) :
    Remembers s (log ++ [c]) (done ++ [s.wordsOf c]) := by
  constructor
  case words => rw [h.words, List.map_append, List.map_singleton]
  case known =>
    intro c' hc'
    rcases List.mem_append.mp hc' with hc' | hc'
    · exact h.known c' hc'
    · exact List.mem_singleton.mp hc' ▸ hargs
  case counted =>
    intro c' hc'
    rcases List.mem_append.mp hc' with hc' | hc'
    · exact h.counted c' hc'
    · exact List.mem_singleton.mp hc' ▸ hnum

/-- The records show the history. -/
theorem Window.history (h : Window HISTSIZE s log L)
    (hR : Remembers s log done) :
    done.rtake (u32 HISTSIZE + 1)
      = L.map fun p => s.wordsOf (s.mem.record p).executed := by
  have hshown := congrArg (List.map s.wordsOf) h.shown
  rw [List.map_map] at hshown
  rw [hR.words]
  unfold List.rtake at hshown ⊢
  rw [List.length_map, ← List.map_drop, ← hshown]
  rfl

theorem checkHist_eq_zero_iff :
    checkHist atoi word = 0 ↔ request atoi word = none := by
  unfold checkHist request
  simp only [isBeginWith_iff (List.cons_ne_nil _ _)]
  split_ifs <;> simp_all

theorem nth_words {history : List (List Token)} {f : Nat → List Token}
    (hL : history = L.map f) (n : Int) :
    (nth L L.length n).map f = nthWords history n := by
  unfold nth nthWords
  by_cases hin : 1 ≤ n ∧ n ≤ L.length
  · rw [if_pos hin, if_pos hin.1, hL, List.getElem?_map]
  · rw [if_neg hin, Option.map_none]
    by_cases hlo : 1 ≤ n
    · rw [if_pos hlo, hL, List.getElem?_map,
        List.getElem?_eq_none (by omega), Option.map_none]
    · rw [if_neg hlo]

variable (rest) in
/-- A recall selects the entry of the words it stands for. -/
theorem asked_command (hnum : s.numHist = L.length)
    {history : List (List Token)} {f : Nat → List Token}
    (hL : history = L.map f) (hreq : request atoi word ≠ none) :
    (asked atoi word s.numHist L).map f = command atoi history word rest := by
  unfold asked command
  rw [hnum]
  cases hr : request atoi word with
  | none => exact absurd hr hreq
  | some r =>
      obtain ⟨e, n⟩ := r
      cases e with
      | oldest => exact nth_words hL n
      | newest =>
          have hrev : history.reverse = L.reverse.map f := by
            rw [hL, List.map_reverse]
          have hnth := nth_words hrev n
          rw [List.length_reverse] at hnth
          exact hnth

/-- Reading a line leaves the arrays alone that are there. -/
theorem heard_argv (atoi : Token → Int) (i : Input) (s : State) :
    ∀ p < s.brk, (heard atoi i s).argv p = s.argv p := by
  intro p hp
  have hread (words : List Token) : (readLine words s).argv p = s.argv p :=
    Function.update_of_ne (Nat.ne_of_lt (Nat.lt_succ_of_lt hp)) _ _
  unfold heard
  split
  case h_1 =>
    split
    case isTrue => exact hread _
    case isFalse => exact hread _
  case h_2 => rfl

theorem heard_brk (atoi : Token → Int) (word : Token) (rest : List Token)
    (forks : Bool) (s : State) :
    (heard atoi (.line (word :: rest) forks) s).brk = s.brk + 2 := by
  unfold heard
  dsimp only
  split <;> rfl

-- ============================================================== the rounds

theorem Window.counted (hH : Sized HISTSIZE) (h : Window HISTSIZE s log L) :
    Counted s L := by
  have hlen := h.length_eq
  obtain ⟨-, hhi⟩ := hH.u32
  exact ⟨h.toListing, by rw [h.count, u32_natCast rfl (by omega)], h.past⟩

/-- A command that is entered is appended and then carried out. -/
theorem Counted.appended_first (h : Counted s L) (hnum : c.numArg ≠ 0)
    (hargs : c.args ≠ NULL) (hcommand : c.command ≠ NULL)
    (hrun : Shell.enter HISTSIZE forks c.command c.args c.numArg c.commandId s
      = some s') :
    ∃ t, Shell.append HISTSIZE c s = some t ∧ s.brk < t.brk
      ∧ callChild forks c.numArg c.args t = some s' := by
  obtain ⟨t, L', hadd, ht, -, hlast, -⟩ := h.append HISTSIZE hnum hargs hcommand
  have hknown := ht.known s.brk (mem_spine.mpr (.inr (.inl (by simp))))
  refine ⟨t, hadd, hknown, ?_⟩
  unfold Shell.enter at hrun
  obtain ⟨t', hadd', hrun⟩ := Option.bind_eq_some_iff.mp hrun
  obtain rfl := Option.some.inj (hadd.symm.trans hadd')
  have hload : t.load s.brk = some (t.mem.record s.brk) :=
    (ht.mem_alive (by simp)).load
  obtain ⟨r, hr, hrun⟩ := Option.bind_eq_some_iff.mp hrun
  obtain rfl := Option.some.inj (hload.symm.trans hr)
  rwa [show (t.mem.record s.brk).numArg = c.numArg from
      congrArg Command.numArg hlast,
    show (t.mem.record s.brk).args = c.args from congrArg Command.args hlast]
    at hrun

/-- So is the command of a line. -/
theorem enter_of_step
    (hc : executes atoi (.line (word :: rest) forks) s = some c)
    (hrun : step HISTSIZE atoi (.line (word :: rest) forks) s = some s') :
    ∃ s₁, enter HISTSIZE forks c.command c.args c.numArg c.commandId
        (heard atoi (.line (word :: rest) forks) s) = some s₁
      ∧ s'.exited = s₁.exited ∧ s'.argv = s₁.argv := by
  unfold executes at hc
  unfold step at hrun
  split at hc
  case isTrue => cases hc
  case isFalse hlive =>
    rw [if_neg hlive] at hrun
    dsimp only at hc hrun
    unfold dispatch at hrun
    by_cases hcheck : checkHist atoi word = 0
    · rw [if_pos hcheck] at hc hrun
      rw [heard_typed hcheck]
      obtain rfl := Option.some.inj hc
      exact ⟨s', hrun, rfl, rfl⟩
    · rw [if_neg hcheck] at hc hrun
      rw [heard_recalled hcheck]
      obtain ⟨p, hfind, hc⟩ := Option.bind_eq_some_iff.mp hc
      rw [toBeCalled_readLine, hfind] at hrun
      split at hc
      case isTrue => cases hc
      case isFalse hnull =>
        obtain ⟨r, hload, rfl⟩ := Option.map_eq_some_iff.mp hc
        change recallEntry HISTSIZE forks p _ = some s' at hrun
        unfold recallEntry at hrun
        simp only [Option.bind_eq_bind] at hrun
        rw [if_pos hnull, show (readLine (word :: rest) s).load p = some r
          from hload, Option.bind_some] at hrun
        obtain ⟨s₁, henter, hrun⟩ := Option.bind_eq_some_iff.mp hrun
        refine ⟨s₁, henter, ?_⟩
        obtain rfl := Option.some.inj hrun
        obtain ⟨hargv, hexited, -⟩ := dropLine_keeps s₁
        split
        case isTrue => exact ⟨rfl, rfl⟩
        case isFalse => exact ⟨hexited, hargv⟩

/-- A recall of nothing only drops the line. -/
theorem step_nothing (hlive : s.exited = false) (hcheck : checkHist atoi word ≠ 0)
    (hfind : toBeCalled atoi word s = some NULL) :
    step HISTSIZE atoi (.line (word :: rest) forks) s
      = some (dropLine (readLine (word :: rest) s)) := by
  have hread : (readLine (word :: rest) s).exited = false := hlive
  unfold step
  rw [if_neg (by rw [hlive]; exact Bool.false_ne_true)]
  show dispatch HISTSIZE atoi (word :: rest) word forks _ = _
  unfold dispatch
  rw [if_neg hcheck, toBeCalled_readLine, hfind, Option.bind_eq_bind,
    Option.bind_some, recallEntry, if_neg (not_not.mpr rfl),
    Option.bind_eq_bind, Option.bind_some, hread, if_neg Bool.false_ne_true]

/-- Between two rounds: the program is in order, and holds the history of the
ideal shell. -/
structure Tracks (HISTSIZE : Int) (s : State) (a : Ideal) : Prop where
  good : Good HISTSIZE s
  exited : a.exited = s.exited
  holds : s.exited = false →
    ∃ log L, Window HISTSIZE s log L ∧ Remembers s log a.done

variable (rest forks) in
/-- What a line stands for is what the program executes. -/
theorem command_executes {a : Ideal} (hW : Window HISTSIZE s log L)
    (hR : Remembers s log a.done) (hlive : s.exited = false)
    (hok : ¬Wraps atoi word s.numHist) :
    (command atoi (a.history HISTSIZE) word rest = none
        ∧ executes atoi (.line (word :: rest) forks) s = none
        ∧ checkHist atoi word ≠ 0 ∧ toBeCalled atoi word s = some NULL)
      ∨ ∃ c, executes atoi (.line (word :: rest) forks) s = some c
        ∧ command atoi (a.history HISTSIZE) word rest
          = some ((heard atoi (.line (word :: rest) forks) s).wordsOf c)
        ∧ c.args < s.brk + 2
        ∧ c.numArg
          = ((heard atoi (.line (word :: rest) forks) s).wordsOf c).length := by
  have hexecutes (hcheck : checkHist atoi word ≠ 0) :
      executes atoi (.line (word :: rest) forks) s
        = (toBeCalled atoi word s).bind fun p =>
          if p = NULL then none
          else (s.load p).map HistCommand.executed := by
    unfold executes
    rw [if_neg (by rw [hlive]; exact Bool.false_ne_true)]
    dsimp only
    rw [if_neg hcheck]
    rfl
  by_cases hreq : request atoi word = none
  case pos =>
    -- typed in full: the words are in the new array
    have hcheck := checkHist_eq_zero_iff.mpr hreq
    have hwords : (heard atoi (.line (word :: rest) forks) s).wordsOf
        ⟨(word :: rest).length, s.brk + 1, s.brk, s.commandId⟩
          = word :: rest := by
      rw [heard_typed hcheck]
      show (Function.update s.argv (s.brk + 1) ⟨s.brk, word :: rest⟩
        (s.brk + 1)).words = _
      rw [Function.update_self]
    refine .inr ⟨⟨(word :: rest).length, s.brk + 1, s.brk, s.commandId⟩, ?_, ?_,
      Nat.lt_succ_self _, ?_⟩
    · unfold executes
      rw [if_neg (by rw [hlive]; exact Bool.false_ne_true)]
      dsimp only
      rw [if_pos hcheck]
    · rw [hwords]
      unfold command
      rw [hreq]
    · rw [hwords]
  case neg =>
    have hcheck := mt checkHist_eq_zero_iff.mp hreq
    have hfind := toBeCalled_asked hW.toListing (Nat.le_of_eq hW.count) hok
    have hcommand := asked_command rest hW.count (hW.history hR) hreq
    rw [hexecutes hcheck, hfind]
    cases hasked : asked atoi word s.numHist L with
    | none =>
        rw [hasked] at hcommand
        exact .inl ⟨hcommand.symm, rfl, hcheck, rfl⟩
    | some p =>
        have hp := asked_mem hasked
        have halive := hW.mem_alive hp
        have hmem : (s.mem.record p).executed ∈ log := by
          have hin : (s.mem.record p).executed
              ∈ L.map fun p => (s.mem.record p).executed :=
            List.mem_map_of_mem hp
          rw [hW.shown] at hin
          exact List.mem_of_mem_drop hin
        have hargs := hR.known _ hmem
        have hsame : (heard atoi (.line (word :: rest) forks) s).wordsOf
            (s.mem.record p).executed = s.wordsOf (s.mem.record p).executed :=
          congrArg Argv.words (heard_argv atoi _ s _ hargs)
        rw [hasked] at hcommand
        refine .inr ⟨(s.mem.record p).executed, ?_, ?_, ?_, ?_⟩
        · rw [Option.getD_some, Option.bind_some, if_neg halive.1, halive.load]
          rfl
        · rw [hsame]
          exact hcommand.symm
        · exact Nat.lt_of_lt_of_le hargs (Nat.le_add_right _ _)
        · rw [hsame]
          exact hR.counted _ hmem

@[simp] theorem execute_done (a : Ideal) (forks : Bool) (words : List Token) :
    (a.execute forks words).done = a.done ++ [words] := by
  unfold Ideal.execute
  split_ifs <;> rfl

variable {a : Ideal}

/-- A line that stands for nothing. -/
theorem Tracks.nothing (h : Tracks HISTSIZE s a) (hlive : s.exited = false)
    (hgood : Good HISTSIZE (dropLine (readLine (word :: rest) s))) :
    Tracks HISTSIZE (dropLine (readLine (word :: rest) s)) a := by
  obtain ⟨log, L, hW, hR⟩ := h.holds hlive
  obtain ⟨hargv, hexited, hbrk⟩ := dropLine_keeps (readLine (word :: rest) s)
  refine ⟨hgood, h.exited.trans hexited.symm, fun _ => ⟨log, L, ?_, ?_⟩⟩
  · have hread : SameList s (readLine (word :: rest) s) :=
      ⟨rfl, rfl, rfl, Nat.le_add_right _ _, rfl, fun _ h => h⟩
    exact hW.same (hread.trans (sameList_dropLine _))
  · refine hR.later ?_ fun p hp => ?_
    · rw [hbrk]
      exact Nat.le_add_right _ _
    · rw [hargv]
      exact Function.update_of_ne (Nat.ne_of_lt (Nat.lt_succ_of_lt hp)) _ _

/-- A line whose command is carried out. -/
theorem Tracks.command (hH : Sized HISTSIZE) (h : Tracks HISTSIZE s a)
    (hlive : s.exited = false) (hok : ¬Wraps atoi word s.numHist)
    (hc : executes atoi (.line (word :: rest) forks) s = some c)
    (hargs : c.args < s.brk + 2)
    (hnum : c.numArg
      = ((heard atoi (.line (word :: rest) forks) s).wordsOf c).length)
    (hgood : Good HISTSIZE s')
    (hrun : step HISTSIZE atoi (.line (word :: rest) forks) s = some s') :
    let words := (heard atoi (.line (word :: rest) forks) s).wordsOf c
    Tracks HISTSIZE s' (a.execute forks words)
      ∧ (a.execute forks words).children = a.children
        ++ (child HISTSIZE atoi (.line (word :: rest) forks) s).toList := by
  intro words
  obtain ⟨log, L, hW, hR⟩ := h.holds hlive
  have hlist : ∀ word' rest' forks', Input.line (word :: rest) forks
      = .line (word' :: rest') forks' →
      ∃ p, toBeCalled atoi word' s = some p ∧ (p = NULL ∨ p ∈ L) := by
    intro word' rest' forks' heq
    cases heq
    exact toBeCalled_listed hW.toListing (Nat.le_of_eq hW.count) hok
  obtain ⟨hnonzero, hargs₀, hcommand₀⟩ := hW.executes_entry hlist hc
  have hheard := hW.same (sameList_heard atoi (.line (word :: rest) forks) s)
  obtain ⟨t, L', hadd, ht⟩ := hheard.append hH hnonzero hargs₀ hcommand₀
  obtain ⟨s₁, henter, hexited₁, hargv₁⟩ := enter_of_step hc hrun
  obtain ⟨t', hadd', hbrk, hcall⟩ :=
    (hheard.counted hH).appended_first hnonzero hargs₀ hcommand₀ henter
  obtain rfl := Option.some.inj (hadd.symm.trans hadd')
  obtain ⟨t', hadd', hsame⟩ := append_of_step hc hrun
  obtain rfl := Option.some.inj (hadd.symm.trans hadd')
  -- what was entered finds its words, and is carried out
  obtain ⟨hargv, hexited⟩ := append_outside hadd
  have hwords : t.wordsOf c = words := congrArg (fun f => (f c.args).words) hargv
  have hquiet : t.exited = false := by
    rw [hexited]
    unfold heard
    dsimp only
    split <;> exact hlive
  obtain ⟨hleft, hchildren, hkept⟩ := callChild_ideal a
    (h.exited.trans hlive) hquiet (hwords ▸ hnum) hcall
  rw [hwords] at hleft hchildren
  have hchild : child HISTSIZE atoi (.line (word :: rest) forks) s
      = childWords forks c t := by
    unfold child
    dsimp only
    rw [hc, Option.bind_eq_bind, Option.bind_some, hadd, Option.bind_eq_bind,
      Option.bind_some]
  refine ⟨⟨hgood, hleft.trans hexited₁.symm, fun hgo => ?_⟩, ?_⟩
  · rw [heard_brk] at hbrk
    have hbrk' := hbrk.trans_le (hsame hgo).brk
    have hsame' : s'.argv = (heard atoi (.line (word :: rest) forks) s).argv := by
      rw [hargv₁, hkept (hexited₁ ▸ hgo), hargv]
    have hlater : Remembers s' log a.done :=
      hR.later (by omega) fun p hp => by
        rw [hsame']
        exact heard_argv atoi _ s p hp
    have hc' : s'.wordsOf c = words := congrArg (fun f => (f c.args).words) hsame'
    refine ⟨log ++ [c], L', ht.same (hsame hgo), ?_⟩
    rw [execute_done, ← hc']
    exact hlater.snoc (by omega) (hc' ▸ hnum)
  · rw [hchild]
    exact hchildren

theorem executes_blank (forks : Bool) (s : State) :
    executes atoi (.line [] forks) s = none := by
  unfold executes
  split <;> rfl

theorem child_of_none {i : Input} (hc : executes atoi i s = none) :
    child HISTSIZE atoi i s = none := by
  unfold child
  cases i with
  | eof => rfl
  | line words forks =>
      dsimp only
      rw [hc]
      rfl

/-- A round that meets the condition, in both shells. -/
theorem Tracks.round (hH : Sized HISTSIZE) (h : Tracks HISTSIZE s a)
    (hlive : s.exited = false) {i : Input} (hdue : Due HISTSIZE atoi i s) :
    ∃ s' a', step HISTSIZE atoi i s = some s'
      ∧ a.step HISTSIZE atoi i = some a' ∧ Tracks HISTSIZE s' a'
      ∧ a'.children = a.children ++ (child HISTSIZE atoi i s).toList := by
  obtain ⟨s', hrun, hgood⟩ := step_good hH h.good hlive hdue
  have ha : ¬a.exited = true := by
    rw [h.exited, hlive]
    exact Bool.false_ne_true
  cases i with
  | eof =>
      refine ⟨s', { a with exited := true }, hrun, ?_, ?_,
        (List.append_nil _).symm⟩
      · unfold Ideal.step
        rw [if_neg ha]
      · unfold step at hrun
        rw [if_neg (by rw [hlive]; exact Bool.false_ne_true)] at hrun
        obtain ⟨s₁, -, hrun⟩ := Option.bind_eq_some_iff.mp hrun
        obtain rfl := Option.some.inj hrun
        exact ⟨hgood, rfl, nofun⟩
  | line words forks =>
      cases words with
      | nil =>
          unfold step at hrun
          rw [if_neg (by rw [hlive]; exact Bool.false_ne_true)] at hrun
          obtain rfl := Option.some.inj hrun
          refine ⟨s, a, ?_, ?_, h, ?_⟩
          · unfold step
            rw [if_neg (by rw [hlive]; exact Bool.false_ne_true)]
          · unfold Ideal.step
            rw [if_neg ha]
          · rw [child_of_none (executes_blank forks s)]
            exact (List.append_nil _).symm
      | cons word rest =>
          obtain ⟨log, L, hW, hR⟩ := h.holds hlive
          have hok : ¬Wraps atoi word s.numHist := by
            intro hw
            rcases toBeCalled_wraps hw with hfind | hfind
            · exact (hdue.entry word rest forks _ rfl hfind).1 rfl
            · exact (hdue.entry word rest forks _ rfl hfind).2 rfl
          rcases command_executes rest forks hW hR hlive hok with
            ⟨hcommand, hnone, hcheck, hfind⟩ | ⟨c, hc, hcommand, hargs, hnum⟩
          · have hdrop : step HISTSIZE atoi (.line (word :: rest) forks) s = _ :=
              step_nothing hlive hcheck hfind
            obtain rfl := Option.some.inj (hdrop.symm.trans hrun)
            refine ⟨_, a, hrun, ?_, h.nothing hlive hgood, ?_⟩
            · unfold Ideal.step
              rw [if_neg ha]
              dsimp only
              rw [hcommand]
            · rw [child_of_none hnone]
              exact (List.append_nil _).symm
          · obtain ⟨htracks, hchildren⟩ :=
              h.command hH hlive hok hc hargs hnum hgood hrun
            refine ⟨s', _, hrun, ?_, htracks, hchildren⟩
            unfold Ideal.step
            rw [if_neg ha]
            dsimp only
            rw [hcommand]

-- ============================================================ the session

theorem tracks_start (HISTSIZE : Int) (head tail : Int × Int) :
    Tracks HISTSIZE (State.start head tail) .start := by
  refine ⟨start_good HISTSIZE head tail, rfl, fun hlive => ?_⟩
  obtain ⟨L, hL⟩ := going_start HISTSIZE head tail hlive
  exact ⟨[], L, hL, rfl, nofun, nofun⟩

/-- The program, its children and what can be read off its list are those of
the ideal shell. -/
structure Agrees (HISTSIZE : Int) (x : State × List (List Token)) (a : Ideal) :
    Prop where
  children : x.2 = a.children
  exited : x.1.exited = a.exited
  history : x.1.exited = false → ∃ commands, forwards x.1 = some commands
    ∧ commands.map x.1.wordsOf = a.history HISTSIZE

theorem Tracks.agrees (h : Tracks HISTSIZE s a) :
    Agrees HISTSIZE (s, a.children) a := by
  refine ⟨rfl, h.exited.symm, fun hlive => ?_⟩
  obtain ⟨log, L, hW, hR⟩ := h.holds hlive
  refine ⟨_, hW.toListing.readings.1, ?_⟩
  rw [List.map_map]
  exact (hW.history hR).symm

theorem Tracks.run (hH : Sized HISTSIZE) : ∀ (inputs : List Input) {s : State}
    {a : Ideal}, Tracks HISTSIZE s a →
    Along (shell HISTSIZE atoi) (Due HISTSIZE atoi) inputs s →
    Option.Rel (Agrees HISTSIZE)
      (Lib.run (observed HISTSIZE atoi) inputs (s, a.children))
      (Lib.run (ideal HISTSIZE atoi) inputs a)
  | [], _, _, h, _ => .some h.agrees
  | i :: rest, s, a, h, hdue => by
      cases hlive : s.exited with
      | true =>
          have hstep : step HISTSIZE atoi i s = none := by
            unfold step
            rw [if_pos hlive]
          have hideal : a.step HISTSIZE atoi i = none := by
            unfold Ideal.step
            rw [if_pos (h.exited.trans hlive)]
          simp only [Lib.run, observed, ideal, hstep, hideal, Option.map_none]
          exact .none
      | false =>
          obtain ⟨s', a', hstep, hideal, htracks, hchildren⟩ :=
            h.round hH hlive hdue.1
          have ih := Tracks.run hH rest htracks (hdue.2 s' hstep)
          simp only [Lib.run, observed, ideal, hstep, hideal, Option.map_some,
            ← hchildren]
          exact ih

/-- In a session whose lines meet the condition, the shell with a history
starts the children the ideal shell starts, in that order and with those
words, is left at the same line or not at all, and shows the same history. -/
theorem shell_refines (hH : Sized HISTSIZE) (head tail : Int × Int)
    (inputs : List Input)
    (hdue : Along (shell HISTSIZE atoi) (Due HISTSIZE atoi) inputs
      (State.start head tail)) :
    Option.Rel (Agrees HISTSIZE)
      (Lib.run (observed HISTSIZE atoi) inputs (State.start head tail, []))
      (Lib.run (ideal HISTSIZE atoi) inputs .start) :=
  (tracks_start HISTSIZE head tail).run hH inputs hdue

/-- A command of two words, then `!!`. -/
theorem shell_refines_recall : ∃ s,
    Lib.run (observed 1 fun _ => 0)
        [.line [['a'], ['b']] true, .line [['!', '!']] true]
        (State.start (0, 0) (0, 0), [])
      = some (s, [[['a'], ['b']], [['a'], ['b']]]) ∧ s.exited = false := by
  let s₀ := State.start (0, 0) (0, 0)
  let typed : Input := .line [['a'], ['b']] true
  let s₁ := (step 1 (fun _ => 0) typed s₀).get (by decide +kernel)
  have hs₁ : step 1 (fun _ => 0) typed s₀ = some s₁ := (Option.some_get _).symm
  have hnone : toBeCalled (fun _ => 0) ['a'] s₀ = some NULL := by
    decide +kernel
  have hnewest : toBeCalled (fun _ => 0) ['!', '!'] s₁ = some 5 := by
    decide +kernel
  have hdue : Along (shell 1 fun _ => 0) (Due 1 fun _ => 0)
      [typed, .line [['!', '!']] true] s₀ := by
    refine ⟨due_line ['a'] [['b']] hnone (by decide +kernel) (by decide +kernel)
      (.inl (by decide +kernel)), fun s' hs' => ?_⟩
    obtain rfl := Option.some.inj (hs₁.symm.trans hs')
    exact ⟨due_line ['!', '!'] [] hnewest (by decide +kernel)
      (by decide +kernel) (.inl (by decide +kernel)), fun _ _ => trivial⟩
  have hideal : Lib.run (ideal 1 fun _ => 0)
      [typed, .line [['!', '!']] true] .start
        = some ⟨[[['a'], ['b']], [['a'], ['b']]],
          [[['a'], ['b']], [['a'], ['b']]], false⟩ := by
    decide +kernel
  have hrel := shell_refines ⟨by decide, by decide⟩ (0, 0) (0, 0) _ hdue
  rw [hideal] at hrel
  generalize Lib.run (observed 1 fun _ => 0) _ _ = o at hrel ⊢
  cases hrel with
  | some hagrees =>
      rename_i x
      exact ⟨x.1, congrArg some (Prod.ext rfl hagrees.children), hagrees.exited⟩

end OperatingSystem.Shell
