/-
Whole sessions of the shell.

Every round of the loop in `main` leaves an intact history or an ended shell,
as long as `Due` holds: what may not happen is that a recall selects the
oldest entry of a full list while no other entry has its id, that `fork`
fails for a command that was typed in full (its buffers are then freed under
the entry that has them), and that a recall selects a sentinel (only `-2^31`
does, in a list of `2^31` entries).
-/
import OperatingSystem.Lib.Transition
import OperatingSystem.Shell.Clear
import OperatingSystem.Shell.Search

namespace OperatingSystem.Shell

open Lib (System Reach i32)

variable {s s' : State} {L A B : List Nat} {p q t fuel : Nat} {b : Block}
  {HISTSIZE : Int} {atoi : Token → Int}

-- =============================================================== the runs

/-- The shell, from its two sentinels on. -/
def shell (HISTSIZE : Int) (atoi : Token → Int) : System State Input where
  start s := ∃ head tail, s = State.start head tail
  step i s := step HISTSIZE atoi i s

/-- What a line must not do, in the state it is typed in. -/
structure Due (HISTSIZE : Int) (atoi : Token → Int) (i : Input) (s : State) :
    Prop where
  /-- `fork` does not fail for a command that was typed in full. -/
  forks : ∀ word rest, i = .line (word :: rest) false →
    checkHist atoi word = 0 → rest = []
      ∧ (word = exitWord ∨ word = historyWord)
  /-- A recall does not select a sentinel. -/
  entry : ∀ word rest f p, i = .line (word :: rest) f →
    toBeCalled atoi word s = some p → p ≠ s.mem.head ∧ p ≠ s.mem.tail
  /-- The oldest entry of a full list is recalled only while another entry
  has its id. -/
  oldest : ∀ word rest f p, i = .line (word :: rest) f →
    toBeCalled atoi word s = some p → u32 HISTSIZE < s.numHist →
    p = s.mem.next s.mem.head → ∃ q, Listed s.mem q ∧ q ≠ p
      ∧ (s.mem.record q).commandId = (s.mem.record p).commandId

-- ============================================================ a typed line

/-- The blocks of the line just read are nobody's. -/
structure Loose (s : State) (L : List Nat) : Prop where
  args : Spare s L (.args s.args)
  line : Spare s L (.line s.commandLine)
  argsPast : s.args < s.brk
  linePast : s.commandLine < s.brk

/-- A spare buffer can be freed. -/
theorem Intact.free_spare (h : Intact HISTSIZE s L) (hadd : s.mem.toAdd = NULL)
    (hb : Spare s L b) (hpast : b.num < s.brk) :
    Intact HISTSIZE (s.free b) L := by
  have hchain := h.toChain.free [b] (s.free b).trace
    fun q _ hmem => hb.buffer q (List.mem_singleton.mp hmem).symm
  constructor
  case toListing => exact ⟨hchain, h.linked⟩
  case count => exact h.count
  case room => exact h.room
  case unmarked => exact h.unmarked
  case kept =>
    intro p hp b' hhas hfreed
    rcases List.mem_cons.mp hfreed with rfl | hfreed
    · exact hb.nobody p hp hhas
    · exact h.kept p hp b' hhas hfreed
  case same => exact h.same
  case owned =>
    intro p hp
    obtain ⟨h₁, h₂, h₃⟩ := h.owned p hp
    exact ⟨h₁, h₂, h₃⟩
  case past =>
    intro b' hfreed
    rcases List.mem_cons.mp hfreed with rfl | hfreed
    · exact hpast
    · exact h.past b' hfreed
  case safe =>
    intro e he
    rcases List.mem_cons.mp he with rfl | he
    · refine ⟨hb.kept, fun href => ?_⟩
      obtain ⟨p, hp, -, hhas⟩ := h.toChain.refers href
      rcases hp with hp | ⟨rfl, hne⟩
      · exact hb.nobody p hp hhas
      · exact hne hadd
    · exact h.safe e he

/-- The line just read can be dropped. -/
theorem dropLine_intact (h : Intact HISTSIZE s L) (hadd : s.mem.toAdd = NULL)
    (hloose : Loose s L) :
    Intact HISTSIZE (dropLine s) L ∧ (dropLine s).mem.toAdd = NULL
      ∧ (dropLine s).exited = s.exited := by
  have hargs : Intact HISTSIZE (s.freeArgs s.args) L
      ∧ (s.freeArgs s.args).mem.toAdd = NULL
      ∧ (s.freeArgs s.args).exited = s.exited
      ∧ Spare (s.freeArgs s.args) L (.line s.commandLine)
      ∧ (s.freeArgs s.args).brk = s.brk := by
    unfold State.freeArgs
    split
    case isTrue => exact ⟨h, hadd, rfl, hloose.line, rfl⟩
    case isFalse =>
      refine ⟨h.free_spare hadd hloose.args hloose.argsPast, hadd, rfl,
        ⟨fun hfreed => ?_, hloose.line.buffer, hloose.line.nobody⟩, rfl⟩
      rcases List.mem_cons.mp hfreed with heq | hfreed
      · cases heq
      · exact hloose.line.kept hfreed
  obtain ⟨h₁, hadd₁, hexit₁, hspare₁, hbrk₁⟩ := hargs
  unfold dropLine State.freeLine
  split
  case isTrue => exact ⟨h₁, hadd₁, hexit₁⟩
  case isFalse =>
    exact ⟨h₁.free_spare hadd₁ hspare₁ (hbrk₁ ▸ hloose.linePast), hadd₁, hexit₁⟩

-- ============================================================= execution

/-- The words are `exit` or `history`, which the shell carries out. -/
def Builtin (numArg : Nat) (words : List Token) : Prop :=
  numArg = 1 ∧ (words.head? = some exitWord ∨ words.head? = some historyWord)

/-- `callChild` on an entry of the history. -/
theorem callChild_intact (h : Intact HISTSIZE s L) (hadd : s.mem.toAdd = NULL)
    (hp : p ∈ L) (forks : Bool) (hfork : forks = false → Loose s L
      ∨ Builtin (s.mem.record p).numArg (s.argv (s.mem.record p).args).words) :
    ∃ s', callChild forks (s.mem.record p).numArg (s.mem.record p).args s
        = some s'
      ∧ ((∀ e ∈ s'.trace, e.Safe) ∧ s'.exited = true
        ∨ ∃ trace, s' = { s with trace }
          ∧ Intact HISTSIZE { s with trace } L) := by
  have hread : ∃ trace, (if (s.mem.record p).numArg = 1
        then s.readArgs (s.mem.record p).args else some s)
        = some { s with trace }
      ∧ Intact HISTSIZE { s with trace } L := by
    by_cases hone : (s.mem.record p).numArg = 1
    · rw [if_pos hone]
      exact h.readArgs hp
    · rw [if_neg hone]
      exact ⟨s.trace, rfl, h⟩
  obtain ⟨trace, hread, h₁⟩ := hread
  unfold callChild
  simp only [Option.bind_eq_bind]
  rw [hread, Option.bind_some]
  split
  case isTrue =>
    obtain ⟨s', hrun, hsafe⟩ := clearList_safe (h₁.clearing hadd)
    rw [hrun, Option.bind_some]
    exact ⟨_, rfl, .inl ⟨hsafe, rfl⟩⟩
  case isFalse hexit =>
    split
    case isTrue =>
      obtain ⟨trace', hrun, h'⟩ := showHistory_intact h₁
      exact ⟨_, hrun, .inr ⟨trace', rfl, h'⟩⟩
    case isFalse hhistory =>
      cases hf : forks with
      | true =>
          obtain ⟨trace', hrun, h'⟩ := h₁.readArgs hp
          rw [if_pos rfl, show State.readArgs _ _ = _ from hrun,
            Option.getD_some]
          exact ⟨_, rfl, .inr ⟨trace', rfl, h'⟩⟩
      | false =>
          rw [if_neg Bool.false_ne_true]
          refine ⟨_, rfl, .inl ⟨?_, rfl⟩⟩
          rcases hfork hf with hloose | ⟨hone, hword⟩
          · have hloose₁ : Loose { s with trace } L :=
              ⟨⟨hloose.args.kept, hloose.args.buffer, hloose.args.nobody⟩,
                ⟨hloose.line.kept, hloose.line.buffer, hloose.line.nobody⟩,
                hloose.argsPast, hloose.linePast⟩
            exact (dropLine_intact h₁ hadd hloose₁).1.safe
          · rcases hword with hword | hword
            · exact absurd ⟨hone, hword⟩ hexit
            · exact absurd ⟨hone, hword⟩ hhistory

/-- The record that `createNode` makes for these. -/
def newRecord (command args numArg : Nat) (commandId : Int) : HistCommand :=
  { numArg, args, command, prev := NULL, next := NULL, commandId
    delete := NOTDELETED }

/-- The blocks of the line just read are not those of the command. -/
structure Foreign (s : State) (L : List Nat) (r : HistCommand) : Prop
    extends Loose s L where
  argsOf : ¬r.Has (.args s.args)
  lineOf : ¬r.Has (.line s.commandLine)

/-- A new record is alive and nowhere in the list, and all else is as it
was. -/
theorem createNode_new (h : Intact HISTSIZE s L) (command args numArg : Nat)
    (commandId : Int) : ∃ s₁,
    createNode command args numArg commandId s = (s.brk, s₁)
      ∧ s₁.mem.record s.brk = newRecord command args numArg commandId
      ∧ Extends s s₁ ∧ s₁.brk = s.brk + 1 ∧ s₁.args = s.args
      ∧ s₁.commandLine = s.commandLine ∧ s₁.argv = s.argv
      ∧ Intact HISTSIZE s₁ L ∧ Alive s₁ s.brk ∧ s.brk ∉ spine s₁.mem L := by
  have he : Extends s (createNode command args numArg commandId s).2 :=
    ⟨rfl, rfl, rfl, rfl, Nat.le_succ _,
      fun p hp => Function.update_of_ne (Nat.ne_of_lt hp) _ _, fun _ _ => rfl⟩
  refine ⟨_, rfl, Function.update_self _ _ _, he, rfl, rfl, rfl, rfl,
    h.extend he h.safe, ⟨fun hnull => ?_, fun hfreed => ?_⟩, fun hmem => ?_⟩
  · have hlt := h.known _ (mem_spine.mpr (.inl rfl))
    rw [hnull] at hlt
    exact Nat.not_lt_zero _ hlt
  · exact Nat.lt_irrefl _ (h.past _ hfreed)
  · exact Nat.lt_irrefl _ (h.known _ hmem)

/-- A command that can be entered is entered and carried out. -/
theorem enter_intact (hH : Sized HISTSIZE) (h : Intact HISTSIZE s L)
    (forks : Bool) {command args numArg : Nat} {commandId : Int}
    (hn : Newcomer HISTSIZE s L (newRecord command args numArg commandId))
    (hfork : forks = false →
      Foreign s L (newRecord command args numArg commandId)
        ∨ Builtin numArg (s.argv args).words) :
    ∃ s', enter HISTSIZE forks command args numArg commandId s = some s'
      ∧ (∀ e ∈ s'.trace, e.Safe)
      ∧ (s'.exited = false → ∃ L', Intact HISTSIZE s' L'
        ∧ s'.mem.toAdd = NULL
        ∧ (Foreign s L (newRecord command args numArg commandId) →
          Loose s' L')) := by
  generalize hr : newRecord command args numArg commandId = r at hn hfork ⊢
  obtain ⟨s₁, hcreate, hrec, he, hbrk₁, hargs₁, hline₁, hargv₁, h₁, halive,
    hnew⟩ := createNode_new h command args numArg commandId
  rw [hr] at hrec
  -- it is appended
  obtain ⟨s₂, L', hadd, h₂, hnull, hsame, hspare⟩ := addToTail_intact hH h₁
    halive hnew (by rw [hbrk₁]; exact Nat.lt_succ_self _)
    (by rw [hrec]; exact hn.extend h he)
  rw [hrec] at hspare
  have hin : s.brk ∈ L' ++ [s.brk] := by simp
  have hnum : (s₂.mem.record s.brk).numArg = numArg := by
    rw [hsame.numArgOf, hrec, ← hr]
    rfl
  have hargs : (s₂.mem.record s.brk).args = args := by
    rw [hsame.argsOf, hrec, ← hr]
    rfl
  have hloose (hf : Foreign s L r) : Loose s₂ (L' ++ [s.brk]) := by
    constructor
    case args =>
      rw [hsame.args, hargs₁]
      exact hspare _ (hf.args.extend h he) hf.argsOf
    case line =>
      rw [hsame.commandLine, hline₁]
      exact hspare _ (hf.line.extend h he) hf.lineOf
    case argsPast =>
      rw [hsame.args, hargs₁, hsame.brk]
      exact Nat.lt_of_lt_of_le hf.argsPast he.brk
    case linePast =>
      rw [hsame.commandLine, hline₁, hsame.brk]
      exact Nat.lt_of_lt_of_le hf.linePast he.brk
  -- and carried out
  obtain ⟨s', hcall, hdone⟩ := callChild_intact h₂ hnull hin forks
    fun hf => by
      rw [hnum, hargs, hsame.argv, hargv₁]
      exact (hfork hf).imp_left hloose
  refine ⟨s', ?_, ?_⟩
  · unfold enter
    rw [hcreate]
    simp only [Option.bind_eq_bind]
    rw [hadd, Option.bind_some, (h₂.mem_alive hin).load, Option.bind_some]
    exact hcall
  · rcases hdone with ⟨hsafe, hexit⟩ | ⟨trace, rfl, h'⟩
    · refine ⟨hsafe, fun hno => ?_⟩
      rw [hexit] at hno
      cases hno
    · refine ⟨h'.safe, fun _ => ⟨_, h', hnull, fun hf => ?_⟩⟩
      obtain ⟨⟨a₁, a₂, a₃⟩, ⟨c₁, c₂, c₃⟩, ha, hc⟩ := hloose hf
      exact ⟨⟨a₁, a₂, a₃⟩, ⟨c₁, c₂, c₃⟩, ha, hc⟩

-- ============================================================ the recalls

theorem follow_congr (hmem : s'.mem = s.mem) (link : HistCommand → Nat) :
    ∀ (n temp : Nat), follow s' link n temp = follow s link n temp := by
  intro n
  induction n with
  | zero => intro temp; rfl
  | succ n ih =>
      intro temp
      have hload : s'.load temp = s.load temp := by
        unfold State.load
        rw [hmem]
      unfold follow
      rw [hload]
      simp only [ih]

/-- Reading a line does not change what is recalled. -/
theorem toBeCalled_readLine (word : Token) (words : List Token) :
    toBeCalled atoi word (readLine words s) = toBeCalled atoi word s := by
  have hfollow := follow_congr (s := s) (show (readLine words s).mem = s.mem
    from rfl)
  unfold toBeCalled findLastN findFirstN
  simp only [hfollow]
  rfl

/-- A recall selects an entry or a sentinel, or nothing. -/
theorem toBeCalled_spine (atoi : Token → Int)
    (h : Intact HISTSIZE s L) (word : Token) :
    ∃ p, toBeCalled atoi word s = some p
      ∧ (p = NULL ∨ p ∈ spine s.mem L) := by
  by_cases hw : Wraps atoi word s.numHist
  case pos =>
    rcases toBeCalled_wraps hw with hfind | hfind
    · exact ⟨_, hfind, .inr (mem_spine.mpr (.inl rfl))⟩
    · exact ⟨_, hfind, .inr (mem_spine.mpr (.inr (.inr rfl)))⟩
  case neg =>
    obtain ⟨p, hfind, hp⟩ := toBeCalled_listed h.toListing (Nat.le_of_eq h.count) hw
    exact ⟨p, hfind, hp.imp_right fun hin => mem_spine.mpr (.inr (.inl hin))⟩

-- =========================================================== the rounds

theorem readLine_extends (words : List Token) (s : State) :
    Extends s (readLine words s) :=
  ⟨rfl, rfl, rfl, rfl, Nat.le_add_right _ _, fun _ _ => rfl,
    fun _ ha => Function.update_of_ne (Nat.ne_of_lt (Nat.lt_succ_of_lt ha)) _ _⟩

/-- A block that `malloc` has yet to return is spare. -/
theorem Intact.spare_new (h : Intact HISTSIZE s L) (hb : s.brk ≤ b.num)
    (hbuffer : ∀ p, b ≠ .record p) : Spare s L b := by
  refine ⟨fun hfreed => Nat.not_lt_of_le hb (h.past b hfreed), hbuffer,
    fun p hp hhas => Nat.not_lt_of_le hb ?_⟩
  rcases hhas with rfl | rfl
  · exact (h.owned p hp).args
  · exact (h.owned p hp).command

theorem readLine_loose (h : Intact HISTSIZE s L) (words : List Token) :
    Loose (readLine words s) L where
  args := (h.spare_new (b := .args (s.brk + 1)) (Nat.le_succ _) nofun).extend h
    (readLine_extends _ _)
  line := (h.spare_new (b := .line s.brk) (Nat.le_refl _) nofun).extend h
    (readLine_extends _ _)
  argsPast := Nat.lt_succ_self _
  linePast := Nat.lt_succ_of_lt (Nat.lt_succ_self _)

/-- What is typed in full can be entered. -/
theorem newcomer_typed (h : Intact HISTSIZE s L) {words : List Token}
    (hwords : words ≠ []) (id : Int) :
    Newcomer HISTSIZE (readLine words s) L
      (newRecord s.brk (s.brk + 1) words.length id) := by
  have hloose := readLine_loose h words
  have hnobody {p : Nat} (hp : p ∈ L) {b : Block}
      (hb : (newRecord s.brk (s.brk + 1) words.length id).Has b) :
      ¬((readLine words s).mem.record p).Has b := by
    rcases hb with rfl | rfl
    · exact hloose.args.nobody p hp
    · exact hloose.line.nobody p hp
  constructor
  case entry =>
    have hhead := h.known _ (mem_spine.mpr (.inl rfl))
    exact ⟨fun hnil => hwords (List.length_eq_zero_iff.mp hnil),
      Nat.succ_ne_zero _, Nat.ne_of_gt (Nat.zero_lt_of_lt hhead)⟩
  case unmarked => rfl
  case kept =>
    intro b hb
    rcases hb with rfl | rfl
    · exact hloose.args.kept
    · exact hloose.line.kept
  case same => exact fun p hp b hb hpb => absurd hpb (hnobody hp hb)
  case owned =>
    refine ⟨Nat.lt_succ_self _, Nat.lt_succ_of_lt (Nat.lt_succ_self _), ?_⟩
    show (Function.update s.argv (s.brk + 1) ⟨s.brk, words⟩ (s.brk + 1)).line
      = s.brk
    rw [Function.update_self]
  case evict =>
    intro _ p rest hL b hb hpb
    exact absurd hpb (hnobody (hL ▸ List.mem_cons_self) hb)

/-- So can a listed entry, unless it is the oldest of a full list and no
other has its id. -/
theorem newcomer_recalled (h : Intact HISTSIZE s L) (hp : p ∈ L)
    (holdest : u32 HISTSIZE < s.numHist → p = s.mem.next s.mem.head →
      ∃ q, Listed s.mem q ∧ q ≠ p
        ∧ (s.mem.record q).commandId = (s.mem.record p).commandId) :
    Newcomer HISTSIZE s L (newRecord (s.mem.record p).command
      (s.mem.record p).args (s.mem.record p).numArg
      (s.mem.record p).commandId) := by
  constructor
  case entry =>
    obtain ⟨h₁, h₂, h₃⟩ := h.entry p hp
    exact ⟨h₁, h₂, h₃⟩
  case unmarked => rfl
  case kept => exact h.kept p hp
  case same => exact fun q hq => h.same p hp q hq
  case owned =>
    obtain ⟨h₁, h₂, h₃⟩ := h.owned p hp
    exact ⟨h₁, h₂, h₃⟩
  case evict =>
    intro hfull o rest hL b hb hob
    subst hL
    rcases List.mem_cons.mp hp with rfl | hp'
    · obtain ⟨q, hq, hne, hid⟩ := holdest hfull h.head_next.symm
      refine ⟨q, ?_, hid⟩
      exact (List.mem_cons.mp (h.toChain.listed hq)).resolve_left hne
    · exact ⟨p, hp', h.same p hp o List.mem_cons_self b hb hob⟩

/-- What holds between two rounds. -/
def Good (HISTSIZE : Int) (s : State) : Prop :=
  (∀ e ∈ s.trace, e.Safe)
    ∧ (s.exited = false → ∃ L, Intact HISTSIZE s L ∧ s.mem.toAdd = NULL)

/-- A line that recalls `p`, or nothing. -/
theorem recall_good (hH : Sized HISTSIZE) (h : Intact HISTSIZE s L)
    (hadd : s.mem.toAdd = NULL) (hexited : s.exited = false)
    (words : List Token) (forks : Bool) (hp : p = NULL ∨ p ∈ L)
    (holdest : u32 HISTSIZE < s.numHist → p = s.mem.next s.mem.head →
      ∃ q, Listed s.mem q ∧ q ≠ p
        ∧ (s.mem.record q).commandId = (s.mem.record p).commandId) :
    ∃ s', recallEntry HISTSIZE forks p (readLine words s) = some s'
      ∧ Good HISTSIZE s' := by
  have hloose := readLine_loose h words
  have h₁ : Intact HISTSIZE (readLine words s) L :=
    h.extend (readLine_extends words s) h.safe
  unfold recallEntry
  simp only [Option.bind_eq_bind]
  by_cases hnull : p = NULL
  · obtain ⟨h₂, hadd₂, -⟩ := dropLine_intact h₁ hadd hloose
    rw [if_neg (not_not.mpr hnull), Option.bind_some, if_neg (by
      rw [show (readLine words s).exited = false from hexited]
      exact Bool.false_ne_true)]
    exact ⟨_, rfl, h₂.safe, fun _ => ⟨L, h₂, hadd₂⟩⟩
  · have hin := hp.resolve_left hnull
    have hn := (newcomer_recalled h hin holdest).extend h
      (readLine_extends words s)
    obtain ⟨s₂, henter, hsafe, hgo⟩ := enter_intact hH h₁ forks hn
      fun _ => .inl ⟨hloose, hloose.args.nobody p hin,
        hloose.line.nobody p hin⟩
    have hrec : (readLine words s).mem.record p = s.mem.record p := rfl
    rw [if_pos hnull, (h₁.mem_alive hin).load, Option.bind_some, hrec, henter,
      Option.bind_some]
    refine ⟨_, rfl, ?_⟩
    cases hexit : s₂.exited with
    | true =>
        rw [if_pos rfl]
        exact ⟨hsafe, fun hno => by rw [hexit] at hno; cases hno⟩
    | false =>
        obtain ⟨L', h₂, hadd₂, hloose₂⟩ := hgo hexit
        obtain ⟨h₃, hadd₃, -⟩ := dropLine_intact h₂ hadd₂ (hloose₂
          ⟨hloose, hloose.args.nobody p hin, hloose.line.nobody p hin⟩)
        rw [if_neg Bool.false_ne_true]
        exact ⟨h₃.safe, fun _ => ⟨L', h₃, hadd₃⟩⟩

/-- A round that meets the condition can be completed, and leaves
everything in order. -/
theorem step_good (hH : Sized HISTSIZE) (h : Good HISTSIZE s)
    (hexited : s.exited = false) {i : Input} (hdue : Due HISTSIZE atoi i s) :
    ∃ s', step HISTSIZE atoi i s = some s' ∧ Good HISTSIZE s' := by
  obtain ⟨L, hL, hadd⟩ := h.2 hexited
  unfold step
  rw [if_neg (by rw [hexited]; exact Bool.false_ne_true)]
  cases i with
  | eof =>
      obtain ⟨s', hrun, hsafe⟩ := clearList_safe (hL.clearing hadd)
      rw [Option.bind_eq_bind, hrun, Option.bind_some]
      exact ⟨_, rfl, hsafe, nofun⟩
  | line words forks =>
      cases words with
      | nil => exact ⟨s, rfl, h⟩
      | cons word rest =>
          show ∃ s', dispatch HISTSIZE atoi (word :: rest) word forks
            (readLine (word :: rest) s) = some s' ∧ Good HISTSIZE s'
          unfold dispatch
          split
          case isTrue hcheck =>
            have he : Extends s { readLine (word :: rest) s with
                commandId := i32 (s.commandId + 1) } := by
              obtain ⟨h₁, h₂, h₃, h₄, h₅, h₆, h₇⟩ :=
                readLine_extends (word :: rest) s
              exact ⟨h₁, h₂, h₃, h₄, h₅, h₆, h₇⟩
            have hn := newcomer_typed hL (List.cons_ne_nil word rest) s.commandId
            have hbuiltin : forks = false → Builtin (word :: rest).length
                (Function.update s.argv (s.brk + 1) ⟨s.brk, word :: rest⟩
                  (s.brk + 1)).words := by
              intro hf
              obtain ⟨rfl, hword⟩ := hdue.forks word rest (hf ▸ rfl) hcheck
              rw [Function.update_self]
              exact ⟨rfl, hword.imp (congrArg some) (congrArg some)⟩
            obtain ⟨s', henter, hsafe, hgo⟩ := enter_intact hH
              (hL.extend he hL.safe) forks
              ⟨hn.entry, hn.unmarked, hn.kept, hn.same,
                ⟨hn.owned.args, hn.owned.command, hn.owned.line⟩, hn.evict⟩
              fun hf => .inr (hbuiltin hf)
            refine ⟨s', henter, hsafe, fun hexit => ?_⟩
            obtain ⟨L', h', hadd', -⟩ := hgo hexit
            exact ⟨L', h', hadd'⟩
          case isFalse =>
            obtain ⟨p, hfind, hp⟩ := toBeCalled_spine atoi hL word
            rw [Option.bind_eq_bind, toBeCalled_readLine, hfind,
              Option.bind_some]
            obtain ⟨hhead, htail⟩ := hdue.entry word rest forks p rfl hfind
            refine recall_good hH hL hadd hexited _ forks ?_
              fun hfull => hdue.oldest word rest forks p rfl hfind hfull
            refine hp.imp_right fun hmem => ?_
            exact ((mem_spine.mp hmem).resolve_left hhead).resolve_right htail

-- ============================================================ all rounds

theorem start_good (HISTSIZE : Int) (head tail : Int × Int) :
    Good HISTSIZE (State.start head tail) := by
  refine ⟨nofun, fun _ => ⟨[], ?_, rfl⟩⟩
  have hspine : spine (State.start head tail).mem [] = [1, 2] := rfl
  have hrec : (State.start head tail).mem.next 1 = 2
      ∧ (State.start head tail).mem.prev 2 = 1
      ∧ (State.start head tail).mem.prev 1 = NULL
      ∧ (State.start head tail).mem.next 2 = NULL := ⟨rfl, rfl, rfl, rfl⟩
  obtain ⟨h₁, h₂, h₃, h₄⟩ := hrec
  have hlinked : Lib.Linked (State.start head tail).mem.next
      (State.start head tail).mem.prev NULL
      (spine (State.start head tail).mem []) NULL := by
    rw [hspine]
    exact ⟨h₁, h₃, h₄, h₂, trivial⟩
  constructor
  case toListing =>
    have hmem {p : Nat} (hp : p ∈ spine (State.start head tail).mem []) :
        0 < p ∧ p < 3 := by
      rw [hspine] at hp
      simp only [List.mem_cons, List.not_mem_nil, or_false] at hp
      omega
    refine ⟨⟨hlinked.forward, ?_, ?_, ?_, nofun, rfl, rfl⟩, hlinked⟩
    · rw [hspine]
      decide
    · exact fun p hp => ⟨Nat.ne_of_gt (hmem hp).1, nofun⟩
    · exact fun p hp => (hmem hp).2
  case count => rfl
  case room => exact Nat.zero_le _
  all_goals exact nofun

/-- As long as every line meets the condition, no buffer is freed twice or
under an entry that has it, none is read after it was freed, and the shell
goes on: every entry that can be listed has its buffers. -/
theorem buffers_kept (hH : Sized HISTSIZE)
    (hreach : Reach (shell HISTSIZE atoi) (Due HISTSIZE atoi) s) :
    (∀ e ∈ s.trace, e.Safe)
      ∧ (s.exited = false →
        (∀ p, Listed s.mem p → ∀ b, (s.mem.record p).Has b → b ∉ s.mem.freed)
        ∧ ∀ i, Due HISTSIZE atoi i s →
          ∃ s', (shell HISTSIZE atoi).step i s = some s') := by
  have hgood : Good HISTSIZE s := by
    refine hreach.invariant (I := Good HISTSIZE) ?_ ?_
    · rintro t ⟨head, tail, rfl⟩
      exact start_good HISTSIZE head tail
    · intro i t t' ht hdue hstep
      have hlive : t.exited = false := by
        cases hexit : t.exited with
        | false => rfl
        | true =>
            have hnone : step HISTSIZE atoi i t = none := by
              unfold step
              rw [if_pos hexit]
            exact absurd (hnone.symm.trans hstep) nofun
      obtain ⟨t'', hrun, ht''⟩ := step_good hH ht hlive hdue
      obtain rfl : t'' = t' := Option.some.inj (hrun.symm.trans hstep)
      exact ht''
  refine ⟨hgood.1, fun hexited => ⟨?_, fun i hdue => ?_⟩⟩
  · obtain ⟨L, hL, -⟩ := hgood.2 hexited
    exact fun p hp => hL.kept p (hL.toChain.listed hp)
  · obtain ⟨s', hrun, -⟩ := step_good hH hgood hexited hdue
    exact ⟨s', hrun⟩

/-- A line that recalls nothing, or an entry that may stay where it is. -/
theorem due_line (word : Token) (rest : List Token)
    (hfind : toBeCalled atoi word s = some p) (hhead : p ≠ s.mem.head)
    (htail : p ≠ s.mem.tail)
    (hfull : s.numHist ≤ u32 HISTSIZE ∨ p ≠ s.mem.next s.mem.head) :
    Due HISTSIZE atoi (.line (word :: rest) true) s := by
  constructor
  case forks =>
    intro _ _ heq
    cases heq
  case entry =>
    intro _ _ _ q heq hq
    cases heq
    obtain rfl := Option.some.inj (hfind.symm.trans hq)
    exact ⟨hhead, htail⟩
  case oldest =>
    intro _ _ _ q heq hq hlt hfirst
    cases heq
    obtain rfl := Option.some.inj (hfind.symm.trans hq)
    rcases hfull with hroom | hne
    · exact absurd hlt (Nat.not_lt_of_le hroom)
    · exact absurd hfirst hne

/-- With room for two entries, the newer one is recalled and the older one
goes. -/
theorem buffers_kept_recall : ∃ s, Reach (shell 1 fun _ => 0) (Due 1 fun _ => 0) s
    ∧ Block.args 4 ∈ s.mem.freed ∧ ∀ e ∈ s.trace, e.Safe := by
  let s₀ := State.start (0, 0) (0, 0)
  let s₁ := ((shell 1 fun _ => 0).step (.line [['a']] true) s₀).get (by decide +kernel)
  let s₂ := ((shell 1 fun _ => 0).step (.line [['b']] true) s₁).get (by decide +kernel)
  let s₃ := ((shell 1 fun _ => 0).step (.line [['!', '!']] true) s₂).get
    (by decide +kernel)
  have hnone₀ : toBeCalled (fun _ => 0) ['a'] s₀ = some NULL := by
    decide +kernel
  have hnone₁ : toBeCalled (fun _ => 0) ['b'] s₁ = some NULL := by
    decide +kernel
  have hnewest : toBeCalled (fun _ => 0) ['!', '!'] s₂ = some 8 := by
    decide +kernel
  have h₀ : Reach (shell 1 fun _ => 0) (Due 1 fun _ => 0) s₀ :=
    ⟨s₀, ⟨_, _, rfl⟩, .refl s₀⟩
  have h₁ : Reach (shell 1 fun _ => 0) (Due 1 fun _ => 0) s₁ :=
    h₀.step (due_line ['a'] [] hnone₀ (by decide +kernel) (by decide +kernel)
      (.inl (by decide +kernel))) (Option.some_get _).symm
  have h₂ : Reach (shell 1 fun _ => 0) (Due 1 fun _ => 0) s₂ :=
    h₁.step (due_line ['b'] [] hnone₁ (by decide +kernel) (by decide +kernel)
      (.inl (by decide +kernel))) (Option.some_get _).symm
  have h₃ : Reach (shell 1 fun _ => 0) (Due 1 fun _ => 0) s₃ :=
    h₂.step (due_line ['!', '!'] [] hnewest (by decide +kernel) (by decide +kernel)
      (.inr (by decide +kernel))) (Option.some_get _).symm
  exact ⟨s₃, h₃, by decide +kernel, (buffers_kept ⟨by decide, by decide⟩ h₃).1⟩

/-- The block is gone already. -/
def Event.late : Event → Bool
  | .free b m => b ∈ m.freed
  | .read b m => b ∈ m.freed

theorem Event.late.not_safe {e : Event} (h : e.late) : ¬e.Safe := by
  cases e with
  | free b m => exact fun hsafe => hsafe.1 (of_decide_eq_true h)
  | read b m => exact fun hsafe => hsafe (of_decide_eq_true h)

/-- With room for two entries, `!1` recalls the one that has to go: its
buffers are freed, and then executed. -/
theorem oldest_recalled : ∃ s, Reach (shell 1 fun _ => 1) Lib.Anything s
    ∧ ∃ e ∈ s.trace, ¬e.Safe := by
  let typed : List Input :=
    [.line [['a']] true, .line [['b']] true, .line [['!', '1']] true]
  let s := (Lib.run (shell 1 fun _ => 1) typed (State.start (0, 0) (0, 0))).get
    (by decide +kernel)
  have hs : Reach (shell 1 fun _ => 1) Lib.Anything s :=
    Lib.reach_of_run typed ⟨_, _, rfl⟩ (Option.some_get _).symm
  have hlate : s.trace.any Event.late = true := by decide +kernel
  obtain ⟨e, he, hlate⟩ := List.any_eq_true.mp hlate
  exact ⟨s, hs, e, he, Event.late.not_safe hlate⟩

end OperatingSystem.Shell
