/-
Which commands the history holds.

`addToTail` lets the list grow as long as `numHist <= HISTSIZE`, so it stops
at `HISTSIZE + 1` entries: after `k` commands the list is the last
`min k (HISTSIZE + 1)` of them (`history_holds_one_more`), which is the last
`min k HISTSIZE` only while `k` is at most `HISTSIZE`.

# What is observed

The list is looked at right after each `addToTail`, read both ways: `exit`
enters itself and then clears the list. What a line executes is `executes`,
and `append` is the part of the round up to the end of `addToTail`
(`step_of_executes`). Nothing is assumed about the lines, and buffers may
have been freed too early: the links do not depend on them.
-/
import Mathlib.Data.List.DropRight
import OperatingSystem.Shell.Session

namespace OperatingSystem.Shell

open Lib (i32)

variable {s s' : State} {L A B : List Nat} {p t fuel : Nat}
  {HISTSIZE : Int} {atoi : Token → Int} {i : Input}

-- ===================================================== what is observed

/-- A command as its entry keeps it: the buffers that were read with it,
how many words, and its number. -/
structure Command where
  numArg : Nat
  args : Nat
  command : Nat
  commandId : Int
  deriving DecidableEq, Repr

variable {c : Command} {log : List Command}

/-- The command of an entry. -/
def HistCommand.executed (r : HistCommand) : Command :=
  ⟨r.numArg, r.args, r.command, r.commandId⟩

/-- The command a line executes: the words typed, which `readLine` puts in
new buffers, or those of the entry that is recalled. -/
def executes (atoi : Token → Int) (i : Input) (s : State) : Option Command :=
  if s.exited then none
  else
    match i with
    | .line (word :: rest) _ =>
        if checkHist atoi word = 0 then
          some ⟨(word :: rest).length, s.brk + 1, s.brk, s.commandId⟩
        else do
          let p ← toBeCalled atoi word s
          if p = NULL then none
          else (s.load p).map HistCommand.executed
    | _ => none

/-- The state in which the command is entered. -/
def heard (atoi : Token → Int) : Input → State → State
  | .line (word :: rest) _, s =>
      if checkHist atoi word = 0 then
        { readLine (word :: rest) s with commandId := i32 (s.commandId + 1) }
      else readLine (word :: rest) s
  | _, s => s

/-- `createNode` and `addToTail`. -/
def append (HISTSIZE : Int) (c : Command) (s : State) : Option State :=
  let (newHist, s) := createNode c.command c.args c.numArg c.commandId s
  addToTail HISTSIZE newHist s

/-- The entries met from `temp` on before `stop`. -/
def walk (s : State) (link : HistCommand → Nat) (stop : Nat) :
    (fuel : Nat) → (temp : Nat) → Option (List Command)
  | 0, _ => none
  | fuel + 1, temp =>
      if temp = stop then some []
      else do
        let r ← s.load temp
        let rest ← walk s link stop fuel (link r)
        some (r.executed :: rest)

/-- The list from `head` to `tail` along `next`. -/
def forwards (s : State) : Option (List Command) := do
  let head ← s.load s.mem.head
  walk s HistCommand.next s.mem.tail s.brk head.next

/-- The list from `tail` to `head` along `prev`. -/
def backwards (s : State) : Option (List Command) := do
  let tail ← s.load s.mem.tail
  walk s HistCommand.prev s.mem.head s.brk tail.prev

/-- The history, read either way, is the last `n` of the commands `log`, or
all of them, and `numHist` is its length. -/
structure Shows (n : Nat) (s : State) (log : List Command) : Prop where
  forwards : forwards s = some (log.rtake n)
  backwards : backwards s = some (log.rtake n).reverse
  numHist : s.numHist = (log.rtake n).length

/-- After each `addToTail` of the session, `P` holds of the state and of the
commands executed so far. -/
def EachTime (HISTSIZE : Int) (atoi : Token → Int)
    (P : State → List Command → Prop) :
    List Input → State → List Command → Prop
  | [], _, _ => True
  | i :: rest, s, log =>
      (∀ c, executes atoi i s = some c →
        ∃ t, append HISTSIZE c (heard atoi i s) = some t ∧ P t (log ++ [c]))
      ∧ ∀ s', step HISTSIZE atoi i s = some s' →
        EachTime HISTSIZE atoi P rest s' (log ++ (executes atoi i s).toList)

/-- The commands a session executes. -/
def executed (HISTSIZE : Int) (atoi : Token → Int) :
    List Input → State → List Command
  | [], _ => []
  | i :: rest, s =>
      (executes atoi i s).toList
        ++ match step HISTSIZE atoi i s with
          | some s' => executed HISTSIZE atoi rest s'
          | none => []

-- ========================================================== both readings

theorem walk_next (h : Listing s (A ++ B)) (hfuel : B.length < fuel) :
    walk s HistCommand.next s.mem.tail fuel (firstOf s.mem B)
      = some (B.map fun p => (s.mem.record p).executed) := by
  induction B generalizing A fuel with
  | nil =>
      cases fuel with
      | zero => exact absurd hfuel (Nat.not_lt_zero _)
      | succ fuel =>
          unfold walk
          rw [if_pos (show firstOf s.mem [] = s.mem.tail from rfl)]
          rfl
  | cons b rest ih =>
      cases fuel with
      | zero => exact absurd hfuel (Nat.not_lt_zero _)
      | succ fuel =>
          have hb : Alive s b := h.mem_alive (by simp)
          have hne : b ≠ s.mem.tail := by
            rintro rfl
            have hn := (List.nodup_cons.mp h.nodup).2
            exact (List.nodup_append.mp hn).2.2 s.mem.tail (by simp) _
              List.mem_cons_self rfl
          have hrest := ih (A := A ++ [b]) (by simpa using h)
            (Nat.lt_of_succ_lt_succ hfuel)
          unfold walk
          rw [firstOf, List.headD_cons, if_neg hne, hb.load,
            Option.bind_eq_bind, Option.bind_some, h.next_eq, hrest]
          rfl

theorem walk_prev (h : Listing s (A ++ B)) (hfuel : A.length < fuel) :
    walk s HistCommand.prev s.mem.head fuel (lastOf s.mem A)
      = some (A.map fun p => (s.mem.record p).executed).reverse := by
  induction A using List.reverseRecOn generalizing B fuel with
  | nil =>
      cases fuel with
      | zero => exact absurd hfuel (Nat.not_lt_zero _)
      | succ fuel =>
          unfold walk
          rw [if_pos (show lastOf s.mem [] = s.mem.head from rfl)]
          rfl
  | append_singleton A a ih =>
      cases fuel with
      | zero => exact absurd hfuel (Nat.not_lt_zero _)
      | succ fuel =>
          rw [List.append_assoc, List.singleton_append] at h
          rw [List.length_append, List.length_singleton] at hfuel
          have ha : Alive s a := h.mem_alive (by simp)
          have hne : a ≠ s.mem.head := by
            rintro rfl
            exact (List.nodup_cons.mp h.nodup).1 (by simp)
          have hlast : lastOf s.mem (A ++ [a]) = a := by simp [lastOf]
          have hrest : walk s HistCommand.prev s.mem.head fuel (lastOf s.mem A)
              = _ := ih h (by omega)
          unfold walk
          rw [hlast, if_neg hne, ha.load, Option.bind_eq_bind,
            Option.bind_some, h.prev_eq, hrest, List.map_append,
            List.reverse_append]
          rfl

/-- Both readings give the commands of the records in between. -/
theorem Listing.readings (h : Listing s L) :
    forwards s = some (L.map fun p => (s.mem.record p).executed)
      ∧ backwards s
        = some (L.map fun p => (s.mem.record p).executed).reverse := by
  unfold forwards backwards
  simp only [Option.bind_eq_bind]
  rw [h.head_alive.load, h.tail_alive.load, Option.bind_some,
    Option.bind_some, h.head_next, h.tail_prev]
  exact ⟨walk_next (A := []) h h.length_lt,
    walk_prev (B := []) (by simpa using h) h.length_lt⟩

-- ================================================================ a round

/-- Nothing that the list consists of differs. -/
structure SameList (s s' : State) : Prop where
  record : s'.mem.record = s.mem.record
  head : s'.mem.head = s.mem.head
  tail : s'.mem.tail = s.mem.tail
  brk : s.brk ≤ s'.brk
  numHist : s'.numHist = s.numHist
  freed : ∀ p, Block.record p ∈ s'.mem.freed → Block.record p ∈ s.mem.freed

theorem SameList.refl (s : State) : SameList s s :=
  ⟨rfl, rfl, rfl, le_rfl, rfl, fun _ h => h⟩

theorem SameList.trans {s₁ s₂ s₃ : State} (h : SameList s₁ s₂)
    (h' : SameList s₂ s₃) : SameList s₁ s₃ :=
  ⟨h'.record.trans h.record, h'.head.trans h.head, h'.tail.trans h.tail,
    h.brk.trans h'.brk, h'.numHist.trans h.numHist,
    fun p hp => h.freed p (h'.freed p hp)⟩

theorem Listing.same (h : Listing s L) (he : SameList s s') :
    Listing s' L := by
  have hspine : spine s'.mem L = spine s.mem L := by
    unfold spine
    rw [he.head, he.tail]
  have hnext : s'.mem.next = s.mem.next := by
    unfold Memory.next
    rw [he.record]
  have hprev : s'.mem.prev = s.mem.prev := by
    unfold Memory.prev
    rw [he.record]
  constructor
  case toChain =>
    constructor
    case forward => rw [hspine, hnext]; exact h.forward
    case nodup => rw [hspine]; exact h.nodup
    case alive =>
      rw [hspine]
      exact fun p hp => ⟨(h.alive p hp).1, fun hf =>
        (h.alive p hp).2 (he.freed p hf)⟩
    case known =>
      rw [hspine]
      exact fun p hp => (h.known p hp).trans_le he.brk
    case entry => rw [he.record]; exact h.entry
    case head => rw [he.record, he.head]; exact h.head
    case tail => rw [he.record, he.tail]; exact h.tail
  case linked => rw [hspine, hnext, hprev]; exact h.linked

theorem sameList_readArgs (hrun : s.readArgs p = some s') :
    SameList s s' := by
  unfold State.readArgs at hrun
  split at hrun
  case isTrue => cases hrun
  case isFalse =>
    obtain rfl := Option.some.inj hrun
    exact ⟨rfl, rfl, rfl, le_rfl, rfl, fun _ h => h⟩

theorem sameList_dropLine (s : State) : SameList s (dropLine s) := by
  have hargs (s : State) (p : Nat) : SameList s (s.freeArgs p) := by
    unfold State.freeArgs
    split
    case isTrue => exact .refl s
    case isFalse =>
      refine ⟨rfl, rfl, rfl, le_rfl, rfl, fun q hq => ?_⟩
      rcases List.mem_cons.mp hq with heq | hq
      · cases heq
      · exact hq
  have hline (s : State) (p : Nat) : SameList s (s.freeLine p) := by
    unfold State.freeLine
    split
    case isTrue => exact .refl s
    case isFalse =>
      refine ⟨rfl, rfl, rfl, le_rfl, rfl, fun q hq => ?_⟩
      rcases List.mem_cons.mp hq with heq | hq
      · cases heq
      · exact hq
  exact (hargs s s.args).trans (hline _ _)

theorem sameList_showFrom (hrun : showFrom fuel p s = some s') :
    SameList s s' := by
  induction fuel generalizing p s with
  | zero => cases hrun
  | succ fuel ih =>
      unfold showFrom at hrun
      obtain ⟨r, -, hrun⟩ := Option.bind_eq_some_iff.mp hrun
      split at hrun
      case isTrue =>
        obtain ⟨s₁, hread, hrun⟩ := Option.bind_eq_some_iff.mp hrun
        exact (sameList_readArgs hread).trans (ih hrun)
      case isFalse =>
        obtain rfl := Option.some.inj hrun
        exact .refl s

/-- A command that does not end the shell leaves the list alone. -/
theorem sameList_callChild {forks : Bool} {cargc argv : Nat}
    (hrun : callChild forks cargc argv s = some s')
    (hexited : s'.exited = false) : SameList s s' := by
  unfold callChild at hrun
  simp only [Option.bind_eq_bind] at hrun
  obtain ⟨s₁, hread, hrun⟩ := Option.bind_eq_some_iff.mp hrun
  have h₁ : SameList s s₁ := by
    split at hread
    case isTrue => exact sameList_readArgs hread
    case isFalse =>
      obtain rfl := Option.some.inj hread
      exact .refl s
  refine h₁.trans ?_
  split at hrun
  case isTrue =>
    obtain ⟨s₂, -, hrun⟩ := Option.bind_eq_some_iff.mp hrun
    obtain rfl := Option.some.inj hrun
    cases hexited
  case isFalse =>
    split at hrun
    case isTrue =>
      unfold showHistory at hrun
      obtain ⟨r, -, hrun⟩ := Option.bind_eq_some_iff.mp hrun
      split at hrun
      case isTrue =>
        obtain rfl := Option.some.inj hrun
        exact .refl s₁
      case isFalse => exact sameList_showFrom hrun
    case isFalse =>
      split at hrun
      case isTrue =>
        obtain rfl := Option.some.inj hrun
        cases hread : s₁.readArgs argv with
        | none => exact .refl s₁
        | some s₂ => exact sameList_readArgs hread
      case isFalse =>
        obtain rfl := Option.some.inj hrun
        cases hexited

/-- A command is appended first, and what is done then does not touch the
list unless the shell ends. -/
theorem append_of_enter {forks : Bool} {command args numArg : Nat} {id : Int}
    (hrun : enter HISTSIZE forks command args numArg id s = some s') :
    ∃ t, append HISTSIZE ⟨numArg, args, command, id⟩ s = some t
      ∧ (s'.exited = false → SameList t s') := by
  unfold enter at hrun
  obtain ⟨t, hadd, hrun⟩ := Option.bind_eq_some_iff.mp hrun
  obtain ⟨r, -, hrun⟩ := Option.bind_eq_some_iff.mp hrun
  exact ⟨t, hadd, sameList_callChild hrun⟩

theorem heard_typed {word : Token} {rest : List Token} {forks : Bool}
    (hcheck : checkHist atoi word = 0) (s : State) :
    heard atoi (.line (word :: rest) forks) s
      = { readLine (word :: rest) s with commandId := i32 (s.commandId + 1) } :=
  if_pos hcheck

theorem heard_recalled {word : Token} {rest : List Token} {forks : Bool}
    (hcheck : checkHist atoi word ≠ 0) (s : State) :
    heard atoi (.line (word :: rest) forks) s = readLine (word :: rest) s :=
  if_neg hcheck

/-- So it is in a whole round that executes `c`. -/
theorem append_of_step (hc : executes atoi i s = some c)
    (hrun : step HISTSIZE atoi i s = some s') :
    ∃ t, append HISTSIZE c (heard atoi i s) = some t
      ∧ (s'.exited = false → SameList t s') := by
  unfold executes at hc
  unfold step at hrun
  split at hc
  case isTrue => cases hc
  case isFalse hlive =>
    rw [if_neg hlive] at hrun
    cases i with
    | eof => cases hc
    | line words forks =>
        cases words with
        | nil => cases hc
        | cons word rest =>
            dsimp only at hc hrun
            unfold dispatch at hrun
            by_cases hcheck : checkHist atoi word = 0
            · rw [if_pos hcheck] at hc hrun
              rw [heard_typed hcheck]
              obtain rfl := Option.some.inj hc
              exact append_of_enter hrun
            · rw [if_neg hcheck] at hc hrun
              rw [heard_recalled hcheck]
              obtain ⟨p, hfind, hc⟩ := Option.bind_eq_some_iff.mp hc
              rw [toBeCalled_readLine, hfind] at hrun
              split at hc
              case isTrue => cases hc
              case isFalse hnull =>
                obtain ⟨r, hload, rfl⟩ := Option.map_eq_some_iff.mp hc
                change recallEntry HISTSIZE forks p _ = some s' at hrun
                unfold recallEntry at hrun
                simp only [Option.bind_eq_bind] at hrun
                rw [if_pos hnull, show (readLine (word :: rest) s).load p
                  = some r from hload, Option.bind_some] at hrun
                obtain ⟨s₁, henter, hrun⟩ := Option.bind_eq_some_iff.mp hrun
                obtain ⟨t, hadd, hsame⟩ := append_of_enter henter
                refine ⟨t, hadd, fun hexited => ?_⟩
                obtain rfl := Option.some.inj hrun
                split at hexited
                case isTrue hexit =>
                  rw [hexit] at hexited
                  cases hexited
                case isFalse hexit =>
                  rw [if_neg hexit]
                  exact (hsame (Bool.eq_false_iff.mpr hexit)).trans
                    (sameList_dropLine s₁)

/-- Any other round leaves the list alone unless the shell ends. -/
theorem sameList_step (hc : executes atoi i s = none)
    (hlist : ∀ word rest forks, i = .line (word :: rest) forks →
      ∃ p, toBeCalled atoi word s = some p ∧ (p = NULL ∨ p ∈ L))
    (halive : ∀ p ∈ L, Alive s p)
    (hrun : step HISTSIZE atoi i s = some s') (hexited : s'.exited = false) :
    SameList s s' := by
  unfold executes at hc
  unfold step at hrun
  split at hrun
  case isTrue => cases hrun
  case isFalse hlive =>
    rw [if_neg hlive] at hc
    cases i with
    | eof =>
        obtain ⟨s₁, -, hrun⟩ := Option.bind_eq_some_iff.mp hrun
        obtain rfl := Option.some.inj hrun
        cases hexited
    | line words forks =>
        cases words with
        | nil =>
            obtain rfl := Option.some.inj hrun
            exact .refl s
        | cons word rest =>
            dsimp only at hc hrun
            unfold dispatch at hrun
            by_cases hcheck : checkHist atoi word = 0
            · rw [if_pos hcheck] at hc
              cases hc
            · rw [if_neg hcheck] at hc hrun
              obtain ⟨p, hfind, hp⟩ := hlist word rest forks rfl
              rw [toBeCalled_readLine, hfind] at hrun
              rw [hfind, Option.bind_eq_bind, Option.bind_some] at hc
              have hnull : p = NULL := by
                by_contra hnull
                rw [if_neg hnull, (halive p (hp.resolve_left hnull)).load] at hc
                cases hc
              change recallEntry HISTSIZE forks p _ = some s' at hrun
              unfold recallEntry at hrun
              rw [if_neg (not_not.mpr hnull), Option.bind_eq_bind,
                Option.bind_some] at hrun
              obtain rfl := Option.some.inj hrun
              have hread : SameList s (readLine (word :: rest) s) :=
                ⟨rfl, rfl, rfl, Nat.le_add_right _ _, rfl, fun _ h => h⟩
              split
              case isTrue => exact hread
              case isFalse => exact hread.trans (sameList_dropLine _)

-- ========================================================== the invariant

/-- The records `L` hold the last `HISTSIZE + 1` of the commands `log`. -/
structure Window (HISTSIZE : Int) (s : State) (log : List Command)
    (L : List Nat) : Prop extends Listing s L where
  count : s.numHist = L.length
  past : ∀ p, Block.record p ∈ s.mem.freed → p < s.brk
  shown : (L.map fun p => (s.mem.record p).executed)
    = log.rtake (u32 HISTSIZE + 1)

theorem Window.same (h : Window HISTSIZE s log L) (he : SameList s s') :
    Window HISTSIZE s' log L where
  toListing := h.toListing.same he
  count := he.numHist.trans h.count
  past p hp := (h.past p (he.freed p hp)).trans_le he.brk
  shown := by rw [he.record]; exact h.shown

theorem length_rtake (log : List Command) (n : Nat) :
    (log.rtake n).length = min n log.length := by
  unfold List.rtake
  rw [List.length_drop]
  omega

/-- One command less. -/
theorem rtake_eq_ite (log : List Command) (n : Nat) :
    log.rtake n = if (log.rtake (n + 1)).length ≤ n then log.rtake (n + 1)
      else (log.rtake (n + 1)).tail := by
  rw [length_rtake]
  unfold List.rtake
  split
  case isTrue =>
    rw [show log.length - n = log.length - (n + 1) by omega]
  case isFalse =>
    rw [List.tail_drop, show log.length - (n + 1) + 1 = log.length - n by omega]

theorem Window.length_eq (h : Window HISTSIZE s log L) :
    L.length = min (u32 HISTSIZE + 1) log.length := by
  rw [← length_rtake, ← h.shown, List.length_map]

/-- What the two readings show is up to date while nothing had to go, and
too long by one from then on. -/
theorem Window.shows_iff (h : Window HISTSIZE s log L) :
    Shows (u32 HISTSIZE) s log ↔ log.length ≤ u32 HISTSIZE := by
  have hlen := h.length_eq
  constructor
  · intro hshows
    have hnum := hshows.numHist
    rw [h.count, length_rtake] at hnum
    omega
  · intro hle
    have hall {n : Nat} (hn : log.length ≤ n) : log.rtake n = log := by
      unfold List.rtake
      rw [Nat.sub_eq_zero_of_le hn, List.drop_zero]
    obtain ⟨hfw, hbw⟩ := h.toListing.readings
    rw [h.shown, hall (by omega)] at hfw hbw
    refine ⟨?_, ?_, ?_⟩
    · rw [hall hle]
      exact hfw
    · rw [hall hle]
      exact hbw
    · rw [hall hle, h.count]
      omega

/-- It always shows the last `HISTSIZE + 1` commands. -/
theorem Window.shows (h : Window HISTSIZE s log L) :
    Shows (u32 HISTSIZE + 1) s log := by
  obtain ⟨hfw, hbw⟩ := h.toListing.readings
  rw [h.shown] at hfw hbw
  refine ⟨hfw, hbw, ?_⟩
  rw [h.count, length_rtake, h.length_eq]

-- =============================================================== a command

/-- The same commands in the same process; only links differ, and the
records `gone` have been freed. -/
structure Relinked (s s' : State) (gone : List Nat) : Prop where
  executed : ∀ p, (s'.mem.record p).executed = (s.mem.record p).executed
  head : s'.mem.head = s.mem.head
  tail : s'.mem.tail = s.mem.tail
  brk : s'.brk = s.brk
  freed : ∀ p, Block.record p ∈ s'.mem.freed →
    p ∈ gone ∨ Block.record p ∈ s.mem.freed

/-- The oldest record goes. -/
theorem popFront_listing (h : Listing s (p :: L))
    (hcount : s.numHist = u32 (L.length + 1)) :
    ∃ s', popFront s = some s' ∧ Listing s' L ∧ s'.numHist = u32 L.length
      ∧ Relinked s s' [p] := by
  have hnum : u32 (s.numHist - 1) = u32 L.length := by
    rw [hcount]
    unfold u32
    omega
  -- what is freed beside the record is no record
  have hmain (extra : List Block) (trace : List Event)
      (hextra : ∀ q, Block.record q ∈ extra → q = p) :
      Listing { s.unhook L with
        mem := { (s.unhook L).mem with freed := extra ++ s.mem.freed }
        trace, numHist := u32 (s.numHist - 1) } L
      ∧ Relinked s { s.unhook L with
        mem := { (s.unhook L).mem with freed := extra ++ s.mem.freed }
        trace, numHist := u32 (s.numHist - 1) } [p] := by
    have hlist := h.unhook
    refine ⟨⟨⟨hlist.forward, hlist.nodup, fun q hq => ?_, hlist.known,
      hlist.entry, hlist.head, hlist.tail⟩, hlist.linked⟩, ?_⟩
    · refine ⟨(hlist.alive q hq).1, fun hfreed => ?_⟩
      rcases List.mem_append.mp hfreed with hfreed | hfreed
      · obtain rfl := hextra q hfreed
        exact h.toChain.not_mem hq
      · exact (hlist.alive q hq).2 hfreed
    · refine ⟨fun _ => rfl, rfl, rfl, rfl, fun q hq => ?_⟩
      rcases List.mem_append.mp hq with hq | hq
      · exact .inl (List.mem_singleton.mpr (hextra q hq))
      · exact .inr hq
  rw [popFront_eq h]
  split
  case isTrue =>
    obtain ⟨hlist, hre⟩ := hmain [.record p] (.free (.record p)
      (s.unhook L).mem :: s.trace) fun q hq => by simpa using hq
    exact ⟨_, rfl, hlist, hnum, hre⟩
  case isFalse =>
    obtain ⟨hlist, hre⟩ := hmain [.record p, .line (s.mem.record p).command,
      .args (s.mem.record p).args]
      ((s.unhook L).release p (s.mem.record p)).trace
      fun q hq => by simpa using hq
    exact ⟨_, rfl, hlist, hnum, hre⟩

theorem Relinked.trans {s₁ s₂ s₃ : State} {gone gone' : List Nat}
    (h : Relinked s₁ s₂ gone) (h' : Relinked s₂ s₃ gone') :
    Relinked s₁ s₃ (gone' ++ gone) where
  executed p := (h'.executed p).trans (h.executed p)
  head := h'.head.trans h.head
  tail := h'.tail.trans h.tail
  brk := h'.brk.trans h.brk
  freed p hp := by
    rcases h'.freed p hp with hp | hp
    · exact .inl (List.mem_append_left gone hp)
    · exact (h.freed p hp).imp_left (List.mem_append_right gone')

theorem Relinked.entry {gone : List Nat} (h : Relinked s s' gone)
    (he : (s.mem.record p).Entry) : (s'.mem.record p).Entry := by
  have heq := h.executed p
  unfold HistCommand.executed at heq
  obtain ⟨hnum, hargs, hcommand, -⟩ := Command.mk.inj heq
  exact ⟨hnum ▸ he.numArg, hargs ▸ he.args, hcommand ▸ he.command⟩

/-- The record `t` is linked in. -/
theorem linkTail_listing (h : Listing s L) (hcount : s.numHist = u32 L.length)
    (ht : Alive s t) (hnew : t ∉ spine s.mem L) (hknown : t < s.brk)
    (hentry : (s.mem.record t).Entry) :
    ∃ s', linkTail t s = some s' ∧ Listing s' (L ++ [t])
      ∧ s'.numHist = u32 (L.length + 1) ∧ Relinked s s' [] := by
  have hlist := h.hook ht hnew hknown hentry
  have hnum : u32 (s.numHist + 1) = u32 (L.length + 1) := by
    rw [hcount]
    unfold u32
    omega
  exact ⟨_, linkTail_eq h ht, ⟨⟨hlist.forward, hlist.nodup, hlist.alive,
    hlist.known, hlist.entry, hlist.head, hlist.tail⟩, hlist.linked⟩, hnum,
    fun _ => rfl, rfl, rfl, rfl, fun _ hp => .inr hp⟩

/-- A new record `t` is appended, and the oldest goes if there are more than
`HISTSIZE`. -/
theorem addToTail_listing (HISTSIZE : Int) (h : Listing s L)
    (hcount : s.numHist = u32 L.length) (ht : Alive s t)
    (hnew : t ∉ spine s.mem L) (hknown : t < s.brk)
    (hentry : (s.mem.record t).Entry) :
    ∃ s' L', addToTail HISTSIZE t s = some s' ∧ Listing s' (L' ++ [t])
      ∧ L' = (if s.numHist ≤ u32 HISTSIZE then L else L.tail)
      ∧ s'.numHist = u32 (L'.length + 1) ∧ Relinked s s' L := by
  generalize hs₁ : { s with mem := { s.mem with toAdd := t } } = s₁
  have hsame₁ : SameList s s₁ := by
    rw [← hs₁]
    exact ⟨rfl, rfl, rfl, le_rfl, rfl, fun _ hp => hp⟩
  have hre₁ : Relinked s s₁ [] := by
    rw [← hs₁]
    exact ⟨fun _ => rfl, rfl, rfl, rfl, fun _ hp => .inr hp⟩
  have h₁ := h.same hsame₁
  have hcount₁ : s₁.numHist = u32 L.length := hsame₁.numHist.trans hcount
  have ht₁ : Alive s₁ t := ⟨ht.1, fun hf => ht.2 (hsame₁.freed t hf)⟩
  -- first there is room, by itself or because the oldest entry goes
  obtain ⟨s₂, L', hmake, h₂, hL', hcount₂, hre₂, ht₂⟩ : ∃ s₂ L',
      (if s₁.numHist ≤ u32 HISTSIZE then some s₁ else popFront s₁) = some s₂
        ∧ Listing s₂ L'
        ∧ L' = (if s.numHist ≤ u32 HISTSIZE then L else L.tail)
        ∧ s₂.numHist = u32 L'.length ∧ Relinked s₁ s₂ L ∧ Alive s₂ t := by
    rw [hsame₁.numHist]
    by_cases hroom : s.numHist ≤ u32 HISTSIZE
    · rw [if_pos hroom, if_pos hroom]
      exact ⟨s₁, L, rfl, h₁, rfl, hcount₁,
        ⟨fun _ => rfl, rfl, rfl, rfl, fun _ hp => .inr hp⟩, ht₁⟩
    · rw [if_neg hroom, if_neg hroom]
      cases L with
      | nil =>
          rw [hcount] at hroom
          exact absurd (Nat.zero_le _) hroom
      | cons p rest =>
          obtain ⟨s₂, hpop, h₂, hcount₂, hre₂⟩ := popFront_listing h₁ hcount₁
          refine ⟨s₂, rest, hpop, h₂, rfl, hcount₂, ⟨hre₂.executed, hre₂.head,
            hre₂.tail, hre₂.brk, fun q hq => ?_⟩, ht.1, fun hf => ?_⟩
          · refine (hre₂.freed q hq).imp_left fun hq => ?_
            rw [List.mem_singleton.mp hq]
            exact List.mem_cons_self
          · rcases hre₂.freed t hf with hgone | hf
            · obtain rfl := List.mem_singleton.mp hgone
              exact hnew (mem_spine.mpr (.inr (.inl List.mem_cons_self)))
            · exact ht₁.2 hf
  have hsub : ∀ p ∈ L', p ∈ L := by
    rw [hL']
    split
    case isTrue => exact fun _ hp => hp
    case isFalse => exact fun _ hp => List.mem_of_mem_tail hp
  have hnew₂ : t ∉ spine s₂.mem L' := by
    intro hmem
    refine hnew (mem_spine.mpr ?_)
    rw [← hre₁.head, ← hre₁.tail, ← hre₂.head, ← hre₂.tail]
    exact (mem_spine.mp hmem).imp_right fun hq => hq.imp_left (hsub t)
  obtain ⟨s₃, hlink, h₃, hcount₃, hre₃⟩ := linkTail_listing h₂ hcount₂ ht₂
    hnew₂ (by rw [hre₂.brk, hre₁.brk]; exact hknown)
    (hre₂.entry (hre₁.entry hentry))
  have hlast : SameList s₃ { s₃ with mem := { s₃.mem with toAdd := NULL } } :=
    ⟨rfl, rfl, rfl, le_rfl, rfl, fun _ hp => hp⟩
  refine ⟨_, L', ?_, h₃.same hlast, hL', hcount₃, ?_⟩
  · unfold addToTail
    simp only [Option.bind_eq_bind]
    rw [hsame₁.numHist] at hmake
    rw [hs₁, hmake, Option.bind_some, hlink, Option.bind_some]
  · have hre := (hre₁.trans hre₂).trans hre₃
    simp only [List.nil_append, List.append_nil] at hre
    exact ⟨hre.executed, hre.head, hre.tail, hre.brk, hre.freed⟩

/-- The history is `L`, counted by an `unsigned int`. -/
structure Counted (s : State) (L : List Nat) : Prop extends Listing s L where
  count : s.numHist = u32 L.length
  past : ∀ p, Block.record p ∈ s.mem.freed → p < s.brk

theorem Counted.same (h : Counted s L) (he : SameList s s') :
    Counted s' L where
  toListing := h.toListing.same he
  count := he.numHist.trans h.count
  past p hp := (h.past p (he.freed p hp)).trans_le he.brk

/-- A command with words and buffers is appended, and the oldest entry goes
if there is no room. -/
theorem Counted.append (HISTSIZE : Int) (h : Counted s L) (hnum : c.numArg ≠ 0)
    (hargs : c.args ≠ NULL) (hcommand : c.command ≠ NULL) :
    ∃ t L', append HISTSIZE c s = some t ∧ Counted t (L' ++ [s.brk])
      ∧ L' = (if s.numHist ≤ u32 HISTSIZE then L else L.tail)
      ∧ (t.mem.record s.brk).executed = c
      ∧ ∀ p ∈ L, (t.mem.record p).executed = (s.mem.record p).executed := by
  generalize hs₁ : (createNode c.command c.args c.numArg c.commandId s).2 = s₁
  have hnewest : s₁.mem.record s.brk
      = newRecord c.command c.args c.numArg c.commandId := by
    rw [← hs₁]
    exact Function.update_self _ _ _
  have hrec : (s₁.mem.record s.brk).executed = c :=
    congrArg HistCommand.executed hnewest
  have hentry : (s₁.mem.record s.brk).Entry := by
    rw [hnewest]
    exact ⟨hnum, hargs, hcommand⟩
  have he : Extends s s₁ := by
    rw [← hs₁]
    exact ⟨rfl, rfl, rfl, rfl, Nat.le_succ _,
      fun p hp => Function.update_of_ne (Nat.ne_of_lt hp) _ _, fun _ _ => rfl⟩
  have hbrk₁ : s₁.brk = s.brk + 1 := by rw [← hs₁]; rfl
  have halive : Alive s₁ s.brk := by
    refine ⟨fun hnull => ?_, fun hfreed => ?_⟩
    · have hknown := h.known _ (mem_spine.mpr (.inl rfl))
      rw [hnull] at hknown
      exact Nat.not_lt_zero _ hknown
    · rw [he.freed] at hfreed
      exact Nat.lt_irrefl _ (h.past _ hfreed)
  have hnew : s.brk ∉ spine s₁.mem L := by
    intro hmem
    unfold spine at hmem
    rw [he.head, he.tail] at hmem
    exact Nat.lt_irrefl _ (h.known _ hmem)
  obtain ⟨t, L', hadd, hlist, hL', hcount', hre⟩ := addToTail_listing
    HISTSIZE (h.toListing.extend he) (he.numHist.trans h.count) halive hnew
    (by rw [hbrk₁]; omega) hentry
  refine ⟨t, L', ?_, ⟨hlist, ?_, ?_⟩, ?_, ?_, fun p hp => ?_⟩
  · have hcreate : createNode c.command c.args c.numArg c.commandId s
        = (s.brk, s₁) := Prod.ext rfl hs₁
    unfold Shell.append
    rw [hcreate]
    exact hadd
  · rw [hcount', List.length_append, List.length_singleton]
    rfl
  · intro p hp
    rw [hre.brk, hbrk₁]
    rcases hre.freed p hp with hp | hp
    · exact Nat.lt_succ_of_lt (h.known p (mem_spine.mpr (.inr (.inl hp))))
    · rw [he.freed] at hp
      exact Nat.lt_succ_of_lt (h.past p hp)
  · rw [hL', he.numHist]
  · rw [hre.executed, hrec]
  · rw [hre.executed, he.record p
      (h.known p (mem_spine.mpr (.inr (.inl hp))))]

/-- It becomes the last of the commands that are shown. -/
theorem Window.append (hH : Sized HISTSIZE) (h : Window HISTSIZE s log L)
    (hnum : c.numArg ≠ 0) (hargs : c.args ≠ NULL) (hcommand : c.command ≠ NULL) :
    ∃ t L', append HISTSIZE c s = some t
      ∧ Window HISTSIZE t (log ++ [c]) L' := by
  have hlen := h.length_eq
  obtain ⟨-, hhi⟩ := hH.u32
  have hsmall (n : Nat) (hn : n ≤ L.length + 1) : u32 n = n :=
    u32_natCast rfl (by omega)
  have hcounted : Counted s L :=
    ⟨h.toListing, by rw [h.count, hsmall _ (Nat.le_succ _)], h.past⟩
  obtain ⟨t, L', hadd, ht, hL', hlast, hothers⟩ :=
    hcounted.append HISTSIZE hnum hargs hcommand
  rw [h.count] at hL'
  refine ⟨t, _, hadd, ht.toListing, ?_, ht.past, ?_⟩
  · rw [ht.count, hsmall]
    rw [List.length_append, List.length_singleton, hL']
    split
    case isTrue => exact le_rfl
    case isFalse => exact Nat.succ_le_succ (L.length_tail ▸ Nat.sub_le _ _)
  · have hkept : (L.map fun p => (t.mem.record p).executed)
        = log.rtake (u32 HISTSIZE + 1) := by
      rw [← h.shown]
      exact List.map_congr_left hothers
    rw [List.map_append, List.map_singleton, hlast,
      List.rtake_concat_succ, hL', rtake_eq_ite, ← hkept, List.length_map]
    split
    case isTrue => rfl
    case isFalse => rw [List.map_tail]

-- ============================================================ the session

theorem sameList_heard (atoi : Token → Int) (i : Input) (s : State) :
    SameList s (heard atoi i s) := by
  have hread (words : List Token) : SameList s (readLine words s) :=
    ⟨rfl, rfl, rfl, Nat.le_add_right _ _, rfl, fun _ h => h⟩
  unfold heard
  split
  case h_1 word rest _ s =>
    split
    case isTrue => exact ⟨rfl, rfl, rfl, Nat.le_add_right _ _, rfl, fun _ h => h⟩
    case isFalse => exact hread _
  case h_2 => exact .refl s

/-- What is executed has words and buffers. -/
theorem Listing.executes_entry (h : Listing s L)
    (hlist : ∀ word rest forks, i = .line (word :: rest) forks →
      ∃ p, toBeCalled atoi word s = some p ∧ (p = NULL ∨ p ∈ L))
    (hc : executes atoi i s = some c) :
    c.numArg ≠ 0 ∧ c.args ≠ NULL ∧ c.command ≠ NULL := by
  unfold executes at hc
  split at hc
  case isTrue => cases hc
  case isFalse =>
    split at hc
    case h_1 word rest forks =>
      split at hc
      case isTrue =>
        obtain rfl := Option.some.inj hc
        have hhead := h.known _ (mem_spine.mpr (.inl rfl))
        exact ⟨Nat.succ_ne_zero _, Nat.succ_ne_zero _,
          Nat.ne_of_gt (Nat.zero_lt_of_lt hhead)⟩
      case isFalse =>
        obtain ⟨p, hfind, hp⟩ := hlist word rest forks rfl
        rw [hfind, Option.bind_eq_bind, Option.bind_some] at hc
        split at hc
        case isTrue => cases hc
        case isFalse hnull =>
          obtain ⟨r, hload, rfl⟩ := Option.map_eq_some_iff.mp hc
          have hin := hp.resolve_left hnull
          obtain rfl := Option.some.inj
            ((h.mem_alive hin).load.symm.trans hload)
          obtain ⟨hnum, hargs, hcommand⟩ := h.entry p hin
          exact ⟨hnum, hargs, hcommand⟩
    case h_2 => cases hc

theorem Sized.u32_eq (h : Sized HISTSIZE) :
    (Shell.u32 HISTSIZE : Int) = HISTSIZE := by
  obtain ⟨hlo, hhi⟩ := h
  unfold Shell.u32
  omega

/-- No session is long enough to fill `2^31` entries, or there is no room
for them. -/
def Roomy (HISTSIZE : Int) (log : List Command) : Prop :=
  log.length < 2147483648 ∨ HISTSIZE < 2147483647

theorem Window.numHist_lt (hH : Sized HISTSIZE) (h : Window HISTSIZE s log L)
    (hroom : Roomy HISTSIZE log) : s.numHist < 2147483648 := by
  have hsize := hH.u32_eq
  have hlen := h.length_eq
  unfold Roomy at hroom
  rw [h.count]
  omega

/-- Then no recall goes wrong. -/
theorem Window.toBeCalled_listed (hH : Sized HISTSIZE)
    (h : Window HISTSIZE s log L) (hroom : Roomy HISTSIZE log) (word : Token) :
    ∃ p, toBeCalled atoi word s = some p ∧ (p = NULL ∨ p ∈ L) :=
  Shell.toBeCalled_listed h.toListing (Nat.le_of_eq h.count)
    (not_wraps (h.numHist_lt hH hroom))

/-- Between two rounds: the shell has ended, or the list is in order. -/
def Going (HISTSIZE : Int) (s : State) (log : List Command) : Prop :=
  s.exited = false → ∃ L, Window HISTSIZE s log L

/-- A round that executes a command. -/
theorem Going.round (hH : Sized HISTSIZE) (h : Going HISTSIZE s log)
    (hroom : Roomy HISTSIZE log) (hc : executes atoi i s = some c) :
    ∃ t L, append HISTSIZE c (heard atoi i s) = some t
      ∧ Window HISTSIZE t (log ++ [c]) L
      ∧ ∀ s', step HISTSIZE atoi i s = some s' →
        Going HISTSIZE s' (log ++ [c]) := by
  have hlive : s.exited = false := by
    cases hexit : s.exited with
    | false => rfl
    | true =>
        unfold executes at hc
        rw [if_pos hexit] at hc
        cases hc
  obtain ⟨L, hL⟩ := h hlive
  obtain ⟨hnum, hargs, hcommand⟩ := hL.executes_entry
    (fun word _ _ _ => hL.toBeCalled_listed hH hroom word) hc
  obtain ⟨t, L', hadd, ht⟩ := (hL.same (sameList_heard atoi i s)).append hH
    hnum hargs hcommand
  refine ⟨t, L', hadd, ht, fun s' hrun hexited => ⟨L', ?_⟩⟩
  obtain ⟨t', hadd', hsame⟩ := append_of_step hc hrun
  obtain rfl := Option.some.inj (hadd.symm.trans hadd')
  exact ht.same (hsame hexited)

/-- Any other round. -/
theorem Going.idle (hH : Sized HISTSIZE) (h : Going HISTSIZE s log)
    (hroom : Roomy HISTSIZE log) (hc : executes atoi i s = none)
    (hrun : step HISTSIZE atoi i s = some s') : Going HISTSIZE s' log := by
  intro hexited
  have hlive : s.exited = false := by
    cases hexit : s.exited with
    | false => rfl
    | true =>
        unfold step at hrun
        rw [if_pos hexit] at hrun
        cases hrun
  obtain ⟨L, hL⟩ := h hlive
  exact ⟨L, hL.same (sameList_step hc
    (fun word _ _ _ => hL.toBeCalled_listed hH hroom word)
    (fun p hp => hL.mem_alive hp) hrun hexited)⟩

theorem going_start (HISTSIZE : Int) (head tail : Int × Int) :
    Going HISTSIZE (State.start head tail) [] := by
  intro hlive
  obtain ⟨L, hL, -⟩ := (start_good HISTSIZE head tail).2 hlive
  have hlen : L.length = 0 := hL.count.symm
  obtain rfl := List.length_eq_zero_iff.mp hlen
  exact ⟨[], hL.toListing, hL.count, nofun, by simp⟩

/-- As long as no command had to go, the readings are up to date, and the
next command after that makes the list too long. -/
theorem Going.shows_iff (hH : Sized HISTSIZE) (inputs : List Input)
    (h : Going HISTSIZE s log) (hle : log.length ≤ u32 HISTSIZE) :
    EachTime HISTSIZE atoi (Shows (u32 HISTSIZE)) inputs s log
      ↔ log.length + (executed HISTSIZE atoi inputs s).length
        ≤ u32 HISTSIZE := by
  induction inputs generalizing s log with
  | nil => exact ⟨fun _ => hle, fun _ => trivial⟩
  | cons i rest ih =>
      have hroom : Roomy HISTSIZE log := .inl (hle.trans_lt hH.u32.2)
      unfold EachTime executed
      cases hc : executes atoi i s with
      | none =>
          simp only [Option.toList_none, List.nil_append, List.append_nil]
          cases hrun : step HISTSIZE atoi i s with
          | none => exact ⟨fun _ => hle, fun _ => ⟨nofun, nofun⟩⟩
          | some s' =>
              have hnext := ih (h.idle hH hroom hc hrun) hle
              refine ⟨fun heach => hnext.mp (heach.2 s' rfl),
                fun hlen => ⟨nofun, fun t ht => ?_⟩⟩
              obtain rfl := Option.some.inj ht
              exact hnext.mpr hlen
      | some c =>
          obtain ⟨t, L, hadd, ht, hnext⟩ := h.round hH hroom hc
          have hlen : (log ++ [c]).length = log.length + 1 := by simp
          have hshow := ht.shows_iff
          rw [hlen] at hshow
          simp only [Option.toList_some, List.length_append,
            List.length_singleton]
          constructor
          · intro heach
            obtain ⟨t', hadd', hshown⟩ := heach.1 c rfl
            obtain rfl := Option.some.inj (hadd.symm.trans hadd')
            have hle' := hshow.mp hshown
            cases hrun : step HISTSIZE atoi i s with
            | none => simpa using hle'
            | some s' =>
                have := (ih (hnext s' hrun) (by rw [hlen]; exact hle')).mp
                  (heach.2 s' hrun)
                rw [hlen] at this
                dsimp only
                omega
          · intro hall
            have hle' : log.length + 1 ≤ u32 HISTSIZE := by omega
            refine ⟨fun c' hc' => ?_, fun s' hrun => ?_⟩
            · obtain rfl := Option.some.inj hc'
              exact ⟨t, hadd, hshow.mpr hle'⟩
            · refine (ih (hnext s' hrun) (by rw [hlen]; exact hle')).mpr ?_
              rw [hrun] at hall
              dsimp only at hall
              rw [hlen]
              omega

/-- The history of a shell with room for `HISTSIZE` commands shows the last
`HISTSIZE` commands, after each one that is executed, if and only if it never
had to forget one. -/
theorem history_is_recent_iff (hH : Sized HISTSIZE) (head tail : Int × Int)
    (inputs : List Input) :
    EachTime HISTSIZE atoi (Shows HISTSIZE.toNat) inputs
        (State.start head tail) []
      ↔ ((executed HISTSIZE atoi inputs (State.start head tail)).length : Int)
        ≤ HISTSIZE := by
  have hsize := hH.u32_eq
  have hnat : HISTSIZE.toNat = u32 HISTSIZE := by omega
  have hiff : EachTime HISTSIZE atoi (Shows (u32 HISTSIZE)) inputs _ [] ↔ _ :=
    (going_start HISTSIZE head tail).shows_iff hH inputs (Nat.zero_le _)
  rw [hnat, hiff, List.length_nil]
  omega

/-- Two commands and a recall of the first in a shell with room for three:
what the recall finds behind `head` is all three, the first one twice. -/
theorem history_is_recent_iff_recall : ∃ s t,
    Lib.run (shell 3 fun _ => 1)
        [.line [['a'], ['x']] true, .line [['b']] true]
        (State.start (0, 0) (0, 0)) = some s
      ∧ append 3 ⟨2, 4, 3, 0⟩ (heard (fun _ => 1) (.line [['!', '1']] true) s)
        = some t
      ∧ forwards t = some [⟨2, 4, 3, 0⟩, ⟨1, 7, 6, 1⟩, ⟨2, 4, 3, 0⟩]
      ∧ backwards t = some [⟨2, 4, 3, 0⟩, ⟨1, 7, 6, 1⟩, ⟨2, 4, 3, 0⟩]
      ∧ t.numHist = 3 := by
  let typed : Input := .line [['a'], ['x']] true
  let typed' : Input := .line [['b']] true
  let recalled : Input := .line [['!', '1']] true
  let s₀ := State.start (0, 0) (0, 0)
  let s₁ := (step 3 (fun _ => 1) typed s₀).get (by decide +kernel)
  let s₂ := (step 3 (fun _ => 1) typed' s₁).get (by decide +kernel)
  have hs₁ : step 3 (fun _ => 1) typed s₀ = some s₁ := (Option.some_get _).symm
  have hs₂ : step 3 (fun _ => 1) typed' s₁ = some s₂ := (Option.some_get _).symm
  have hc₁ : executes (fun _ => 1) typed s₀ = some ⟨2, 4, 3, 0⟩ := by
    decide +kernel
  have hc₂ : executes (fun _ => 1) typed' s₁ = some ⟨1, 7, 6, 1⟩ := by
    decide +kernel
  have hc₃ : executes (fun _ => 1) recalled s₂ = some ⟨2, 4, 3, 0⟩ := by
    decide +kernel
  have heach : EachTime 3 (fun _ => 1) (Shows 3) [typed, typed', recalled] s₀ [] :=
    (history_is_recent_iff ⟨by decide, by decide⟩ (0, 0) (0, 0)
      [typed, typed', recalled]).mpr (by decide +kernel)
  obtain ⟨t, ht, hshows⟩ := ((heach.2 s₁ hs₁).2 s₂ hs₂).1 _ hc₃
  rw [hc₁, hc₂] at hshows
  refine ⟨s₂, t, ?_, ht, hshows.forwards, hshows.backwards, hshows.numHist⟩
  simp only [Lib.run, shell]
  rw [hs₁]
  dsimp only
  rw [hs₂]

/-- With room for one command, after the second both are in the list. -/
theorem history_keeps_two :
    ¬EachTime 1 (fun _ => 0) (Shows 1) [.line [['a']] true, .line [['b']] true]
        (State.start (0, 0) (0, 0)) []
      ∧ ∃ s t, step 1 (fun _ => 0) (.line [['a']] true)
          (State.start (0, 0) (0, 0)) = some s
        ∧ append 1 ⟨1, 7, 6, 1⟩ (heard (fun _ => 0) (.line [['b']] true) s)
          = some t
        ∧ forwards t = some [⟨1, 4, 3, 0⟩, ⟨1, 7, 6, 1⟩] ∧ t.numHist = 2 := by
  let typed : Input := .line [['b']] true
  let s := (step 1 (fun _ => 0) (.line [['a']] true)
    (State.start (0, 0) (0, 0))).get (by decide +kernel)
  let t := (append 1 ⟨1, 7, 6, 1⟩ (heard (fun _ => 0) typed s)).get
    (by decide +kernel)
  have hs : step 1 (fun _ => 0) (.line [['a']] true)
      (State.start (0, 0) (0, 0)) = some s := (Option.some_get _).symm
  have hc : executes (fun _ => 0) typed s = some ⟨1, 7, 6, 1⟩ := by
    decide +kernel
  have ht : append 1 ⟨1, 7, 6, 1⟩ (heard (fun _ => 0) typed s) = some t :=
    (Option.some_get _).symm
  have hnum : t.numHist = 2 := by decide +kernel
  refine ⟨fun heach => ?_, s, t, hs, ht, by decide +kernel, hnum⟩
  obtain ⟨t', ht', hshows⟩ := (heach.2 s hs).1 _ hc
  obtain rfl := Option.some.inj (ht.symm.trans ht')
  have hlen := hshows.numHist
  rw [hnum, length_rtake] at hlen
  omega

/-- It shows one command more than that, whatever was executed. -/
theorem history_holds_one_more (hH : Sized HISTSIZE)
    (hmax : HISTSIZE < 2147483647) (head tail : Int × Int)
    (inputs : List Input) :
    EachTime HISTSIZE atoi (Shows (HISTSIZE.toNat + 1)) inputs
      (State.start head tail) [] := by
  have hsize := hH.u32_eq
  have hnat : HISTSIZE.toNat = u32 HISTSIZE := by omega
  rw [hnat]
  suffices general : ∀ (s : State) (log : List Command),
      Going HISTSIZE s log →
      EachTime HISTSIZE atoi (Shows (u32 HISTSIZE + 1)) inputs s log by
    exact general _ _ (going_start HISTSIZE head tail)
  intro s log h
  induction inputs generalizing s log with
  | nil => trivial
  | cons i rest ih =>
      have hroom : Roomy HISTSIZE log := .inr hmax
      refine ⟨fun c hc => ?_, fun s' hrun => ih s' _ ?_⟩
      · obtain ⟨t, L, hadd, ht, -⟩ := h.round hH hroom hc
        exact ⟨t, hadd, ht.shows⟩
      · cases hc : executes atoi i s with
        | none => simpa using h.idle hH hroom hc hrun
        | some c =>
            obtain ⟨t, L, -, -, hnext⟩ := h.round hH hroom hc
            exact hnext s' hrun

end OperatingSystem.Shell
